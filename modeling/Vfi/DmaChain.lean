import Mathlib.Data.List.Flatten
import Mathlib.Data.UInt
import Vfi.Lib.CircularList
import Vfi.Lib.KeyedList

/-!
# The segment chain of a bind

Each src holds one segment descriptor of the 8641 engine. The segments are kept
twice: as the `dma_chain` lists, one for the srcs of each dst, one for the dsts
and one for the bind, and as the chain of physical addresses in `hw.next`. The
functions below build both together.
-/

namespace Vfi.DmaChain

open CircularList

variable {σ δ : Type}

/-- The list nodes: one in each segment descriptor, and the list heads. -/
inductive Node (σ δ : Type) where
  | seg (src : σ)
  | srcs (dst : δ)
  | dsts
  | bind
  deriving DecidableEq

structure SegDesc where
  nextExt : UInt32
  next : UInt32
  paddr : UInt64

structure XferObject where
  linkExt : UInt32
  link : UInt32
  next : UInt32

/-- A bind under its parent objects, the members of each kset in creation order. -/
structure Bind (σ δ : Type) where
  dsts : Option (List δ)
  srcs : δ → Option (List σ)

structure State (σ δ : Type) where
  links : Links (Node σ δ)
  seg : σ → SegDesc
  xfo : XferObject

def dmaEndOfChain : UInt32 := 0x1

def toSdesc : Node σ δ → Option σ
  | .seg src => some src
  | _ => none

/-- The low word of a descriptor's address, without the flag bits. -/
def linkWord (paddr : UInt64) : UInt32 := (paddr &&& ~~~0x1f).toUInt32

section Operations

variable [DecidableEq σ] [DecidableEq δ]

def State.setNext (s : State σ δ) (src : σ) (next : UInt32) : State σ δ :=
  { s with seg := Function.update s.seg src ⟨(s.seg src).nextExt, next, (s.seg src).paddr⟩ }

def dmaRioLoad (virtToPhys : σ → UInt64) (src : σ) (s : State σ δ) : State σ δ :=
  { s with seg := Function.update s.seg src ⟨0, dmaEndOfChain, virtToPhys src⟩ }

def dmaRioLinkSrc (first : Node σ δ) (second : σ) (s : State σ δ) : Option (State σ δ) := do
  let s ← (if isEmpty s.links first then some s
    else do
      let riolast ← toSdesc (s.links.prev first)
      some (s.setNext riolast (linkWord (s.seg second).paddr)))
  some { s with links := addTail s.links (.seg second) first }

def vfiDstLoadSrcs (virtToPhys : σ → UInt64) (b : Bind σ δ) (s : State σ δ) (dst : δ) :
    Option (State σ δ) :=
  match b.srcs dst with
  | none => some s
  | some srcs =>
    srcs.foldlM (fun s src => dmaRioLinkSrc (.srcs dst) src (dmaRioLoad virtToPhys src s)) s

def dmaRioLinkDst (b : Bind σ δ) (first : Node σ δ) (second : δ) (s : State σ δ) :
    Option (State σ δ) :=
  match b.srcs second with
  | none => some s
  | some _ => do
    let s ← (if isEmpty s.links first then some s
      else do
        let riolast ← toSdesc (s.links.prev first)
        let rio2 ← toSdesc (s.links.next (.srcs second))
        some (s.setNext riolast (linkWord (s.seg rio2).paddr)))
    some { s with links := splice s.links (.srcs second) (s.links.prev first) }

/-- The last splice follows `bind->dsts`, so that a bind without dsts faults. -/
def vfiBindLoadDsts (b : Bind σ δ) (s : State σ δ) : Option (State σ δ) := do
  let dsts ← b.dsts
  let s ← dsts.foldlM (fun s dst => dmaRioLinkDst b .dsts dst s) s
  some { s with links := splice s.links .dsts .bind }

def dmaRioLinkBind (s : State σ δ) : Option (State σ δ) := do
  let seg ← toSdesc (s.links.next .bind)
  some { s with
    xfo := { linkExt := 0, link := (s.seg seg).paddr.toUInt32, next := dmaEndOfChain } }

/-- The heads as the creation of the bind, of its dsts and of their srcs leaves them. -/
def initHeads (dsts : List δ) (s : State σ δ) : State σ δ :=
  { s with links := (.bind :: .dsts :: dsts.map .srcs).foldl init s.links }

/-- Loads the srcs of the dsts in `order`, then the dsts, then the transfer object. -/
def loadBind (virtToPhys : σ → UInt64) (b : Bind σ δ) (order : List δ) (s : State σ δ) :
    Option (State σ δ) := do
  let s ← order.foldlM (vfiDstLoadSrcs virtToPhys b) s
  let s ← vfiBindLoadDsts b s
  dmaRioLinkBind s

-- ---------------------------------------------------------------------------
-- The engine
-- ---------------------------------------------------------------------------

def hwAddress (ext next : UInt32) : UInt64 :=
  (ext.toUInt64 <<< 32 ||| next.toUInt64) &&& ~~~0x1f

/-- The segments the engine visits from an address on, when it reaches the end of the
chain within `fuel` of them. Only the descriptors in `memory` can be fetched. -/
def walk (virtToPhys : σ → UInt64) (memory : List σ) (s : State σ δ) :
    Nat → UInt64 → Option (List σ)
  | 0, _ => none
  | fuel + 1, addr => do
    let src ← memory.find? fun src => virtToPhys src = addr
    let seg := s.seg src
    if seg.next &&& dmaEndOfChain ≠ 0 then some [src]
    else do
      let rest ← walk virtToPhys memory s fuel (hwAddress seg.nextExt seg.next)
      some (src :: rest)

end Operations

-- ---------------------------------------------------------------------------
-- The two views of a list
-- ---------------------------------------------------------------------------

/-- The words of the segments of `l`, each the address of the next segment, the last
the end mark. -/
structure Chained (virtToPhys : σ → UInt64) (s : State σ δ) (l : List σ) : Prop where
  next : l.map (fun x => (s.seg x).next) =
    (l.map (fun x => linkWord (virtToPhys x)) ++ [dmaEndOfChain]).tail
  seg : ∀ x ∈ l, (s.seg x).paddr = virtToPhys x ∧ (s.seg x).nextExt = 0

structure Loaded (virtToPhys : σ → UInt64) (s : State σ δ) (head : Node σ δ) (l : List σ) :
    Prop where
  ring : Ring s.links head (l.map .seg)
  chained : Chained virtToPhys s l

/-- A step that writes `nodes` and no other node. -/
structure Within (nodes : List (Node σ δ)) (s t : State σ δ) : Prop where
  next : ∀ n ∉ nodes, t.links.next n = s.links.next n
  prev : ∀ n ∉ nodes, t.links.prev n = s.links.prev n
  seg : ∀ x, .seg x ∉ nodes → t.seg x = s.seg x

variable {virtToPhys : σ → UInt64} {b : Bind σ δ} {s t u : State σ δ} {head first : Node σ δ}
  {nodes more : List (Node σ δ)} {l m : List σ} {x y : σ} {d : δ}

theorem toSdesc_seg (x : σ) : toSdesc (.seg x : Node σ δ) = some x := rfl

theorem Within.mono (h : Within nodes s t) (hsub : nodes ⊆ more) : Within more s t where
  next n hn := h.next n fun hmem => hn (hsub hmem)
  prev n hn := h.prev n fun hmem => hn (hsub hmem)
  seg x hx := h.seg x fun hmem => hx (hsub hmem)

theorem Within.trans (h : Within nodes s t) (h' : Within nodes t u) : Within nodes s u where
  next n hn := (h'.next n hn).trans (h.next n hn)
  prev n hn := (h'.prev n hn).trans (h.prev n hn)
  seg x hx := (h'.seg x hx).trans (h.seg x hx)

theorem Chained.congr (h : Chained virtToPhys s l) (hseg : ∀ x ∈ l, t.seg x = s.seg x) :
    Chained virtToPhys t l where
  next := by
    rw [← h.next]
    exact List.map_congr_left fun x hx => by rw [hseg x hx]
  seg x hx := by
    rw [hseg x hx]
    exact h.seg x hx

theorem Loaded.frame (h : Loaded virtToPhys s head l) (hwithin : Within nodes s t)
    (hdisj : List.Disjoint (head :: l.map .seg) nodes) : Loaded virtToPhys t head l where
  ring := h.ring.congr (fun n hn => hwithin.next n (hdisj hn))
    (fun n hn => hwithin.prev n (hdisj hn))
  chained := h.chained.congr fun x hx =>
    hwithin.seg x (hdisj (List.mem_cons_of_mem head (List.mem_map_of_mem hx)))

theorem chained_nil (virtToPhys : σ → UInt64) (s : State σ δ) : Chained virtToPhys s [] where
  next := rfl
  seg := nofun

theorem Loaded.prev_head (h : Loaded virtToPhys s first (l ++ [x])) :
    s.links.prev first = .seg x := by
  have hprev := h.ring.prev
  rw [List.map_append, List.map_singleton, List.map_append, List.map_singleton,
    ← List.cons_append] at hprev
  exact List.singleton_inj.mp (List.append_inj' hprev rfl).2

/-- The words of a chain split before its last segment, which holds the end mark. -/
theorem Chained.last (h : Chained virtToPhys s (l ++ [x])) :
    l.map (fun z => (s.seg z).next) =
        ((l ++ [x]).map fun z => linkWord (virtToPhys z)).tail ∧
      (s.seg x).next = dmaEndOfChain := by
  have hnext := h.next
  rw [List.tail_append_of_ne_nil (by simp), List.map_append] at hnext
  obtain ⟨hbefore, hlast⟩ := List.append_inj' hnext rfl
  exact ⟨hbefore, List.singleton_inj.mp hlast⟩

theorem Chained.tail (h : Chained virtToPhys s (x :: y :: m)) :
    (s.seg x).next = linkWord (virtToPhys y) ∧ Chained virtToPhys s (y :: m) :=
  ⟨(List.cons.inj h.next).1, (List.cons.inj h.next).2,
    fun z hz => h.seg z (List.mem_cons_of_mem x hz)⟩

/-- The nodes a dst brings with it. -/
def dstNodes (srcs : δ → List σ) (d : δ) : List (Node σ δ) := .srcs d :: (srcs d).map .seg

variable {srcs : δ → List σ} {dsts order : List δ}

theorem nodup_dstNodes (hnodup : dsts.Nodup) (hsegs : (dsts.flatMap srcs).Nodup) :
    (dsts.flatMap (dstNodes srcs)).Nodup := by
  obtain ⟨hsrcs, hdisj⟩ := List.nodup_flatMap.mp hsegs
  refine List.nodup_flatMap.mpr ⟨fun d hd => ?_, (hnodup.and hdisj).imp ?_⟩
  · exact List.nodup_cons.mpr ⟨by simp, (hsrcs d hd).map fun _ _ => Node.seg.inj⟩
  · rintro d e ⟨hne, hdisj⟩ n hn hn'
    rcases List.mem_cons.mp hn with rfl | hn
    · simp [dstNodes, hne] at hn'
    · obtain ⟨x, hx, rfl⟩ := List.mem_map.mp hn
      exact hdisj hx (by simpa [dstNodes] using hn')

variable [DecidableEq σ]

theorem chained_load (virtToPhys : σ → UInt64) (s : State σ δ) (x : σ) :
    Chained virtToPhys (dmaRioLoad virtToPhys x s) [x] where
  next := by simp [dmaRioLoad]
  seg := by simp [dmaRioLoad]

theorem setNext_seg_self (s : State σ δ) (x : σ) (w : UInt32) :
    (s.setNext x w).seg x = ⟨(s.seg x).nextExt, w, (s.seg x).paddr⟩ :=
  Function.update_self _ _ _

theorem setNext_seg_of_ne (h : y ≠ x) (w : UInt32) : (s.setNext x w).seg y = s.seg y :=
  Function.update_of_ne h _ _

/-- Patching the last segment of one chain with the address of the first of another
joins them. -/
theorem Chained.join (h : Chained virtToPhys s (l ++ [x])) (h' : Chained virtToPhys s (y :: m))
    (hl : x ∉ l) (hm : x ∉ y :: m) :
    Chained virtToPhys (s.setNext x (linkWord (virtToPhys y))) (l ++ [x] ++ y :: m) where
  next := by
    have hkept : ∀ xs : List σ, x ∉ xs →
        xs.map (fun z => ((s.setNext x (linkWord (virtToPhys y))).seg z).next) =
          xs.map fun z => (s.seg z).next := by
      refine fun xs hxs => List.map_congr_left fun z hz => ?_
      rw [setNext_seg_of_ne]
      rintro rfl
      exact hxs hz
    have hne : (l ++ [x]).map (fun z => linkWord (virtToPhys z)) ≠ [] := by simp
    have hwords : ((l ++ [x] ++ y :: m).map (fun z => linkWord (virtToPhys z)) ++
          [dmaEndOfChain]).tail =
        ((l ++ [x]).map fun z => linkWord (virtToPhys z)).tail ++
          ((y :: m).map (fun z => linkWord (virtToPhys z)) ++ [dmaEndOfChain]) := by
      rw [List.map_append, List.append_assoc, List.tail_append_of_ne_nil hne]
    rw [hwords, ← h.last.1, List.map_append, List.map_append, hkept l hl, hkept _ hm, h'.next]
    simp [setNext_seg_self]
  seg := by
    intro z hz
    have hold : (s.seg z).paddr = virtToPhys z ∧ (s.seg z).nextExt = 0 :=
      (List.mem_append.mp hz).elim (h.seg z) (h'.seg z)
    by_cases hzx : z = x
    · subst hzx
      simpa [setNext_seg_self] using hold
    · rw [setNext_seg_of_ne hzx]
      exact hold

theorem within_load (virtToPhys : σ → UInt64) (x : σ) (s : State σ δ) :
    Within [.seg x] s (dmaRioLoad virtToPhys x s) where
  next _ _ := rfl
  prev _ _ := rfl
  seg y hy := Function.update_of_ne (fun heq => hy (by simp [heq])) _ _

theorem within_setNext (s : State σ δ) (x : σ) (w : UInt32) :
    Within [.seg x] s (s.setNext x w) where
  next _ _ := rfl
  prev _ _ := rfl
  seg y hy := setNext_seg_of_ne (fun heq => hy (by simp [heq])) w

variable [DecidableEq δ]

theorem Loaded.isEmpty_iff (h : Loaded virtToPhys s first l) : isEmpty s.links first ↔ l = [] := by
  rw [h.ring.isEmpty_iff, List.map_eq_nil_iff]

theorem within_addTail {new : Node σ δ} (h : Ring s.links first nodes) :
    Within (first :: nodes ++ [new]) s { s with links := addTail s.links new first } where
  next n hn := by
    rw [List.mem_append, List.mem_singleton, not_or] at hn
    exact (h.addTail_frame hn.1 hn.2).1
  prev n hn := by
    rw [List.mem_append, List.mem_singleton, not_or] at hn
    exact (h.addTail_frame hn.1 hn.2).2
  seg _ _ := rfl

theorem within_splice {list : Node σ δ} (h : Ring s.links first nodes)
    (hlist : Ring s.links list more) :
    Within (first :: nodes ++ more) s
      { s with links := splice s.links list (s.links.prev first) } where
  next n hn := by
    rw [List.mem_append, not_or] at hn
    exact (h.splice_frame hlist hn.1 hn.2).1
  prev n hn := by
    rw [List.mem_append, not_or] at hn
    exact (h.splice_frame hlist hn.1 hn.2).2
  seg _ _ := rfl

/-- What linking a src and linking a dst begin with: the last segment of a list that is
not empty gets the address of the first segment to come. -/
theorem patch_last (h : Loaded virtToPhys s first l) (h' : Chained virtToPhys s (y :: m))
    (hnodup : (l ++ y :: m).Nodup) :
    ∃ t, (if isEmpty s.links first then some s
        else (toSdesc (s.links.prev first)).bind fun riolast =>
          some (s.setNext riolast (linkWord (virtToPhys y)))) = some t ∧
      t.links = s.links ∧ Chained virtToPhys t (l ++ y :: m) ∧ Within (l.map .seg) s t := by
  obtain ⟨hl, -, hdisj⟩ := List.nodup_append'.mp hnodup
  rcases List.eq_nil_or_concat' l with rfl | ⟨l, x, rfl⟩
  · refine ⟨s, if_pos (h.isEmpty_iff.mpr rfl), rfl, h', ?_⟩
    exact ⟨fun _ _ => rfl, fun _ _ => rfl, fun _ _ => rfl⟩
  · have hempty : ¬ isEmpty s.links first := by
      rw [h.isEmpty_iff]
      exact List.append_ne_nil_of_right_ne_nil l (List.cons_ne_nil x [])
    have hx : x ∉ l := by
      rw [List.nodup_append'] at hl
      exact fun hmem => hl.2.2 hmem List.mem_cons_self
    have hm : x ∉ y :: m := hdisj (List.mem_append_right l List.mem_cons_self)
    refine ⟨s.setNext x (linkWord (virtToPhys y)), ?_, rfl, h.chained.join h' hx hm, ?_⟩
    · rw [if_neg hempty, h.prev_head]
      rfl
    · exact (within_setNext s x _).mono (by simp)

-- ---------------------------------------------------------------------------
-- Loading the srcs of a dst
-- ---------------------------------------------------------------------------

/-- Linking a src that was just loaded appends it to both views. -/
theorem dmaRioLinkSrc_load (h : Loaded virtToPhys s first l) (hfirst : ∀ x, first ≠ .seg x)
    (hnodup : (l ++ [x]).Nodup) :
    ∃ t, dmaRioLinkSrc first x (dmaRioLoad virtToPhys x s) = some t ∧
      Loaded virtToPhys t first (l ++ [x]) ∧
      Within (first :: (l ++ [x]).map .seg) s t := by
  have hx : x ∉ l := by
    rw [List.nodup_append'] at hnodup
    exact fun hmem => hnodup.2.2 hmem List.mem_cons_self
  have hnew : Node.seg x ∉ first :: l.map .seg := by
    simpa [hx] using Ne.symm (hfirst x)
  have hload := within_load virtToPhys x s
  have hold := h.frame hload (by simpa using hnew)
  obtain ⟨t, hpatch, hlinks, hchained, hwithin⟩ :=
    patch_last hold (chained_load virtToPhys s x) hnodup
  have hpaddr : ((dmaRioLoad virtToPhys x s).seg x).paddr = virtToPhys x := by
    simp [dmaRioLoad]
  have hring : Ring t.links first (l.map .seg) := hlinks ▸ h.ring
  refine ⟨{ t with links := addTail t.links (.seg x) first }, ?_, ⟨?_, ?_⟩, ?_⟩
  · simp only [dmaRioLinkSrc, Option.bind_eq_bind, hpaddr, hpatch, Option.bind_some]
  · simpa using hring.addTail hnew
  · exact hchained.congr fun _ _ => rfl
  · rw [List.map_append, ← List.cons_append, List.map_singleton]
    refine (hload.mono ?_).trans ((hwithin.mono ?_).trans (within_addTail hring)) <;>
      simp

/-- Loading the srcs in creation order puts them into both views in that order, and
writes nothing outside the dst. -/
theorem loadSrcs (h : Loaded virtToPhys s first l) (hfirst : ∀ x, first ≠ .seg x)
    (hnodup : (l ++ m).Nodup) :
    ∃ t, m.foldlM (fun s src => dmaRioLinkSrc first src (dmaRioLoad virtToPhys src s)) s = some t ∧
      Loaded virtToPhys t first (l ++ m) ∧ Within (first :: (l ++ m).map .seg) s t := by
  induction m generalizing l s with
  | nil =>
    refine ⟨s, rfl, by simpa using h, ?_⟩
    exact ⟨fun _ _ => rfl, fun _ _ => rfl, fun _ _ => rfl⟩
  | cons x m ih =>
    rw [List.append_cons] at hnodup ⊢
    obtain ⟨t, hstep, ht, hwithin⟩ :=
      dmaRioLinkSrc_load h hfirst (List.nodup_append'.mp hnodup).1
    obtain ⟨u, hrest, hu, hwithin'⟩ := ih ht hnodup
    refine ⟨u, ?_, hu, (hwithin.mono ?_).trans hwithin'⟩
    · rw [List.foldlM_cons, hstep]
      exact hrest
    · simp

theorem loadOrder (hb : ∀ d ∈ order, b.srcs d = some (srcs d))
    (h : ∀ d ∈ order, Loaded virtToPhys s (.srcs d) [])
    (hnodup : (order.flatMap (dstNodes srcs)).Nodup) :
    ∃ t, order.foldlM (vfiDstLoadSrcs virtToPhys b) s = some t ∧
      (∀ d ∈ order, Loaded virtToPhys t (.srcs d) (srcs d)) ∧
      Within (order.flatMap (dstNodes srcs)) s t := by
  induction order generalizing s with
  | nil => exact ⟨s, rfl, nofun, fun _ _ => rfl, fun _ _ => rfl, fun _ _ => rfl⟩
  | cons d order ih =>
    rw [List.flatMap_cons] at hnodup ⊢
    obtain ⟨hd, hrest, hdisj⟩ := List.nodup_append'.mp hnodup
    have hsrcs : ([] ++ srcs d).Nodup := List.Nodup.of_map Node.seg (List.nodup_cons.mp hd).2
    obtain ⟨t, hstep, ht, hwithin⟩ := loadSrcs (h d List.mem_cons_self) nofun hsrcs
    have hfresh : ∀ e ∈ order, Loaded virtToPhys t (.srcs e) [] := by
      refine fun e he => (h e (List.mem_cons_of_mem d he)).frame hwithin ?_
      have hmem : Node.srcs e ∈ order.flatMap (dstNodes srcs) :=
        List.mem_flatMap.mpr ⟨e, he, List.mem_cons_self⟩
      exact List.disjoint_cons_left.mpr ⟨fun hin => hdisj hin hmem, List.disjoint_nil_left _⟩
    obtain ⟨u, hfold, hu, hwithin'⟩ :=
      ih (fun e he => hb e (List.mem_cons_of_mem d he)) hfresh hrest
    refine ⟨u, ?_, ?_, (hwithin.mono (List.subset_append_left _ _)).trans
      (hwithin'.mono (List.subset_append_right _ _))⟩
    · have hload : vfiDstLoadSrcs virtToPhys b s d = some t := by
        rw [vfiDstLoadSrcs, hb d List.mem_cons_self]
        exact hstep
      rw [List.foldlM_cons, hload]
      exact hfold
    · rintro e he
      cases he with
      | head => exact ht.frame hwithin' hdisj
      | tail _ he => exact hu e he

-- ---------------------------------------------------------------------------
-- Linking the dsts
-- ---------------------------------------------------------------------------

/-- Linking a dst appends its srcs to both views of the chain so far. -/
theorem dmaRioLinkDst_loaded (h : Loaded virtToPhys s first l)
    (hd : Loaded virtToPhys s (.srcs d) (y :: m)) (hb : b.srcs d = some (y :: m))
    (hdisj : List.Disjoint (first :: l.map .seg) (.srcs d :: (y :: m).map .seg)) :
    ∃ t, dmaRioLinkDst b first d s = some t ∧ Loaded virtToPhys t first (l ++ y :: m) ∧
      Within (first :: (l ++ y :: m).map .seg) s t := by
  have hnodup : (l ++ y :: m).Nodup := by
    refine List.nodup_append'.mpr ⟨(List.nodup_cons.mp h.ring.nodup).2.of_map,
      (List.nodup_cons.mp hd.ring.nodup).2.of_map, fun z hz hz' => ?_⟩
    exact hdisj (List.mem_cons_of_mem first (List.mem_map_of_mem hz))
      (List.mem_cons_of_mem _ (List.mem_map_of_mem hz'))
  obtain ⟨t, hpatch, hlinks, hchained, hwithin⟩ := patch_last h hd.chained hnodup
  have hring : Ring t.links first (l.map .seg) := hlinks ▸ h.ring
  have hlist : Ring t.links (.srcs d) ((y :: m).map .seg) := hlinks ▸ hd.ring
  refine ⟨{ t with links := splice t.links (.srcs d) (t.links.prev first) }, ?_, ⟨?_, ?_⟩, ?_⟩
  · have hnext : s.links.next (.srcs d) = .seg y := hd.ring.first
    have hpaddr : (s.seg y).paddr = virtToPhys y := (hd.chained.seg y List.mem_cons_self).1
    simp only [dmaRioLinkDst, hb, Option.bind_eq_bind, hnext, toSdesc_seg, Option.bind_some,
      hpaddr, hpatch]
  · rw [List.map_append]
    exact hring.splice hlist hdisj
  · exact hchained.congr fun _ _ => rfl
  · rw [List.map_append, ← List.cons_append]
    exact (hwithin.mono (by simp)).trans (within_splice hring hlist)

/-- Linking the dsts in creation order appends the srcs of each in turn. -/
theorem linkDsts (h : Loaded virtToPhys s first l)
    (hb : ∀ d ∈ dsts, b.srcs d = some (srcs d)) (hne : ∀ d ∈ dsts, srcs d ≠ [])
    (hd : ∀ d ∈ dsts, Loaded virtToPhys s (.srcs d) (srcs d))
    (hnodup : (first :: l.map .seg ++ dsts.flatMap (dstNodes srcs)).Nodup) :
    ∃ t, dsts.foldlM (fun s d => dmaRioLinkDst b first d s) s = some t ∧
      Loaded virtToPhys t first (l ++ dsts.flatMap srcs) ∧
      Within (first :: l.map .seg ++ dsts.flatMap (dstNodes srcs)) s t := by
  induction dsts generalizing l s with
  | nil =>
    refine ⟨s, rfl, by simpa using h, ?_⟩
    exact ⟨fun _ _ => rfl, fun _ _ => rfl, fun _ _ => rfl⟩
  | cons d dsts ih =>
    obtain ⟨y, m, hsrcs⟩ := List.exists_cons_of_ne_nil (hne d List.mem_cons_self)
    have hbd := hb d List.mem_cons_self
    have hld := hd d List.mem_cons_self
    rw [List.flatMap_cons, dstNodes] at hnodup
    rw [hsrcs] at hbd hld hnodup
    have hdisj : List.Disjoint (first :: l.map .seg) (.srcs d :: (y :: m).map .seg) :=
      List.disjoint_of_disjoint_append_right_left (List.nodup_append'.mp hnodup).2.2
    obtain ⟨t, hstep, ht, hwithin⟩ := dmaRioLinkDst_loaded h hld hbd hdisj
    have hsub : List.Sublist (first :: (l ++ y :: m).map .seg ++ dsts.flatMap (dstNodes srcs))
        (first :: l.map .seg ++
          (.srcs d :: (y :: m).map .seg ++ dsts.flatMap (dstNodes srcs))) := by
      rw [List.map_append, ← List.cons_append, List.append_assoc]
      exact (List.sublist_cons_self _ _).append_left _
    have hnodup' := hnodup.sublist hsub
    have hkept : ∀ e ∈ dsts, Loaded virtToPhys t (.srcs e) (srcs e) := by
      refine fun e he => (hd e (List.mem_cons_of_mem d he)).frame hwithin fun n hn hn' => ?_
      exact (List.nodup_append'.mp hnodup').2.2 hn' (List.mem_flatMap.mpr ⟨e, he, hn⟩)
    obtain ⟨u, hfold, hu, hwithin'⟩ := ih ht (fun e he => hb e (List.mem_cons_of_mem d he))
      (fun e he => hne e (List.mem_cons_of_mem d he)) hkept hnodup'
    rw [List.flatMap_cons, List.flatMap_cons, dstNodes, hsrcs, ← List.append_assoc]
    refine ⟨u, ?_, hu, (hwithin.mono ?_).trans (hwithin'.mono hsub.subset)⟩
    · rw [List.foldlM_cons, hstep]
      exact hfold
    · exact List.Subset.trans (List.subset_append_left _ _) hsub.subset

/-- A bind with its srcs loaded and its dsts linked. -/
theorem loadBind_loaded (virtToPhys : σ → UInt64) (s : State σ δ) (hdsts : b.dsts = some dsts)
    (hsrcs : ∀ d ∈ dsts, b.srcs d = some (srcs d)) (hsrcsne : ∀ d ∈ dsts, srcs d ≠ [])
    (hnodup : dsts.Nodup) (hsegs : dsts.flatMap srcs = x :: m) (hsegsNodup : (x :: m).Nodup)
    (horder : order.Perm dsts) :
    ∃ t, loadBind virtToPhys b order (initHeads dsts s) = some t ∧
      Loaded virtToPhys t .bind (x :: m) ∧ t.xfo.linkExt = 0 ∧
      t.xfo.link = (virtToPhys x).toUInt32 := by
  have hnodes := nodup_dstNodes hnodup (hsegs ▸ hsegsNodup)
  have hfresh : ∀ head ∈ Node.bind :: .dsts :: dsts.map .srcs,
      Loaded virtToPhys (initHeads dsts s) head [] := fun head hmem =>
    ⟨ring_foldl_init s.links hmem, chained_nil virtToPhys _⟩
  have hperm : (order.flatMap (dstNodes srcs)).Perm (dsts.flatMap (dstNodes srcs)) :=
    horder.flatMap_right _
  obtain ⟨t, hload, ht, hwithin⟩ := loadOrder (fun d hd => hsrcs d (horder.subset hd))
    (fun d hd => hfresh (.srcs d) (by simpa using horder.subset hd)) (hperm.nodup_iff.mpr hnodes)
  have hdstsHead : Loaded virtToPhys t .dsts [] :=
    (hfresh .dsts (by simp)).frame hwithin (by simp [dstNodes])
  obtain ⟨u, hlink, hu, hwithin'⟩ := linkDsts hdstsHead hsrcs hsrcsne
    (fun d hd => ht d (horder.symm.subset hd)) (by simpa [dstNodes] using hnodes)
  rw [List.nil_append, hsegs] at hu
  have hbind : Loaded virtToPhys u .bind [] :=
    ((hfresh .bind (by simp)).frame hwithin (by simp [dstNodes])).frame hwithin'
      (by simp [dstNodes])
  have hprev : u.links.prev .bind = .bind := List.singleton_inj.mp hbind.ring.prev
  have hring := hbind.ring.splice hu.ring (by simp)
  rw [hprev, List.map_nil, List.nil_append] at hring
  have hfirst : (splice u.links .dsts .bind).next .bind = .seg x := hring.first
  have hpaddr : (u.seg x).paddr = virtToPhys x := (hu.chained.seg x List.mem_cons_self).1
  refine ⟨{ u with
      links := splice u.links .dsts .bind
      xfo := ⟨0, (u.seg x).paddr.toUInt32, dmaEndOfChain⟩ }, ?_,
    ⟨hring, hu.chained.congr fun _ _ => rfl⟩, rfl, congrArg UInt64.toUInt32 hpaddr⟩
  simp only [loadBind, hload, vfiBindLoadDsts, hdsts, hlink, dmaRioLinkBind, hfirst, toSdesc_seg,
    Option.bind_eq_bind, Option.bind_some]

-- ---------------------------------------------------------------------------
-- The walk
-- ---------------------------------------------------------------------------

theorem linkWord_flag (p : UInt64) : linkWord p &&& dmaEndOfChain = 0 := by
  have hmask : (~~~0x1f : UInt64).toUInt32 &&& dmaEndOfChain = 0 := by decide
  rw [linkWord, UInt64.toUInt32_and, UInt32.and_assoc, hmask, UInt32.and_zero]

theorem and_not_of_aligned {p : UInt64} (hp : p &&& 0x1f = 0) : p &&& ~~~0x1f = p := by
  rw [← UInt64.toBitVec_inj, UInt64.toBitVec_and, UInt64.toBitVec_not]
  have hzero : p.toBitVec &&& (0x1f : UInt64).toBitVec = 0#64 := congrArg UInt64.toBitVec hp
  calc p.toBitVec &&& ~~~(0x1f : UInt64).toBitVec
      = p.toBitVec &&& (0x1f : UInt64).toBitVec ||| p.toBitVec &&& ~~~(0x1f : UInt64).toBitVec := by
        rw [hzero, BitVec.zero_or]
    _ = p.toBitVec := by
        rw [← BitVec.and_or_distrib_left, BitVec.or_not_self, BitVec.and_allOnes]

theorem hwAddress_low {p : UInt64} (hp : p < 2 ^ 32) (halign : p &&& 0x1f = 0) :
    hwAddress 0 p.toUInt32 = p := by
  have hlow : p.toUInt32.toUInt64 = p := by
    rw [UInt64.toUInt64_toUInt32]
    exact UInt64.mod_eq_of_lt hp
  have hext : (0 : UInt32).toUInt64 <<< 32 = 0 := by decide
  rw [hwAddress, hlow, hext, UInt64.zero_or, and_not_of_aligned halign]

theorem hwAddress_linkWord {p : UInt64} (hp : p < 2 ^ 32) (halign : p &&& 0x1f = 0) :
    hwAddress 0 (linkWord p) = p := by
  rw [linkWord, and_not_of_aligned halign, hwAddress_low hp halign]

omit [DecidableEq σ] [DecidableEq δ] in
/-- The engine follows a chain to its end. -/
theorem walk_chained {memory : List σ} {fuel : Nat} (hmemory : (memory.map virtToPhys).Nodup)
    (hphys : ∀ x ∈ memory, virtToPhys x < 2 ^ 32 ∧ virtToPhys x &&& 0x1f = 0)
    (h : Chained virtToPhys s (x :: m)) (hsub : x :: m ⊆ memory) (hfuel : m.length < fuel) :
    walk virtToPhys memory s fuel (virtToPhys x) = some (x :: m) := by
  have hfind : memory.find? (fun src => virtToPhys src = virtToPhys x) = some x :=
    (KeyedList.find_eq_some_iff hmemory).mpr ⟨hsub List.mem_cons_self, rfl⟩
  induction m generalizing x fuel with
  | nil =>
    cases fuel with
    | zero => cases hfuel
    | succ fuel =>
      have hend : (s.seg x).next = dmaEndOfChain := (h.last (l := [])).2
      have hflag : dmaEndOfChain ≠ 0 := by decide
      simp [walk, hfind, hend, hflag]
  | cons y m ih =>
    cases fuel with
    | zero => cases hfuel
    | succ fuel =>
      obtain ⟨hnext, htail⟩ := h.tail
      have hext : (s.seg x).nextExt = 0 := (h.seg x List.mem_cons_self).2
      have hy : y ∈ memory := hsub (List.mem_cons_of_mem x List.mem_cons_self)
      have hrest : walk virtToPhys memory s fuel (virtToPhys y) = some (y :: m) :=
        ih htail (fun z hz => hsub (List.mem_cons_of_mem x hz)) (Nat.lt_of_succ_lt_succ hfuel)
          ((KeyedList.find_eq_some_iff hmemory).mpr ⟨hy, rfl⟩)
      have hflag := linkWord_flag (virtToPhys y)
      have haddr := hwAddress_linkWord (hphys y hy).1 (hphys y hy).2
      simp [walk, hfind, hnext, hext, hflag, haddr, hrest]

/-- From the transfer object the engine visits the segments of all srcs of all dsts in
creation order and stops at the end mark, and `dma_chain` lists the same segments. -/
theorem hardware_chain (virtToPhys : σ → UInt64) (b : Bind σ δ) (srcs : δ → List σ) (s : State σ δ)
    (hdsts : b.dsts = some dsts) (hne : dsts ≠ [])
    (hsrcs : ∀ d ∈ dsts, b.srcs d = some (srcs d)) (hsrcsne : ∀ d ∈ dsts, srcs d ≠ [])
    (hnodup : dsts.Nodup) (hdistinct : ((dsts.flatMap srcs).map virtToPhys).Nodup)
    (hphys : ∀ x ∈ dsts.flatMap srcs, virtToPhys x < 2 ^ 32 ∧ virtToPhys x &&& 0x1f = 0)
    (horder : order.Perm dsts) :
    ∃ t, loadBind virtToPhys b order (initHeads dsts s) = some t ∧
      (∀ fuel, (dsts.flatMap srcs).length ≤ fuel →
        walk virtToPhys (dsts.flatMap srcs) t fuel (hwAddress t.xfo.linkExt t.xfo.link) =
          some (dsts.flatMap srcs)) ∧
      (∀ x ∈ (dsts.flatMap srcs).getLast?, (t.seg x).next &&& dmaEndOfChain ≠ 0) ∧
      Ring t.links .bind ((dsts.flatMap srcs).map .seg) := by
  obtain ⟨x, m, hsegs⟩ : ∃ x m, dsts.flatMap srcs = x :: m := by
    refine List.exists_cons_of_ne_nil fun hnil => ?_
    obtain ⟨d, hd⟩ := List.exists_mem_of_ne_nil dsts hne
    exact hsrcsne d hd (List.flatMap_eq_nil_iff.mp hnil d hd)
  rw [hsegs] at hdistinct hphys ⊢
  obtain ⟨t, hload, ht, hext, hlink⟩ := loadBind_loaded virtToPhys s hdsts hsrcs hsrcsne hnodup
    hsegs hdistinct.of_map horder
  refine ⟨t, hload, fun fuel hfuel => ?_, ?_, ht.ring⟩
  · have hx := hphys x List.mem_cons_self
    rw [hext, hlink, hwAddress_low hx.1 hx.2]
    exact walk_chained hdistinct hphys ht.chained (List.Subset.refl _) hfuel
  · intro z hz
    obtain ⟨before, hsplit⟩ := List.getLast?_eq_some_iff.mp hz
    have hend := (hsplit ▸ ht.chained).last.2
    rw [hend]
    decide

/-- Two dsts, the first with two srcs, loaded in the other order. -/
theorem hardware_chain_three :
    ∃ t, loadBind (fun src : ℕ => 0x1000 + 0x40 * src.toUInt64)
        ⟨some [true, false], fun dst => some (cond dst [0, 1] [2])⟩ [false, true]
        (initHeads [true, false] ⟨⟨id, id⟩, fun _ => ⟨7, 7, 7⟩, ⟨7, 7, 7⟩⟩) = some t ∧
      (∀ fuel, 3 ≤ fuel → walk (fun src : ℕ => 0x1000 + 0x40 * src.toUInt64) [0, 1, 2] t fuel
        (hwAddress t.xfo.linkExt t.xfo.link) = some [0, 1, 2]) ∧
      (∀ x ∈ [0, 1, 2].getLast?, (t.seg x).next &&& dmaEndOfChain ≠ 0) ∧
      Ring t.links .bind ([0, 1, 2].map .seg) :=
  hardware_chain _ _ (fun dst : Bool => cond dst [0, 1] [2]) _ rfl (by decide)
    (by decide) (by decide) (by decide) (by decide) (by decide) (by decide)

end Vfi.DmaChain
