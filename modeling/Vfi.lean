import Vfi.FragmentCopy
import Vfi.BindVote
import Vfi.Sync
import Vfi.DmaQueue
import Vfi.FabricCall
import Vfi.FabricRequest
import Vfi.XferRefs
import Vfi.SmbLife
import Vfi.BindCreate
import Vfi.Mmap
import Vfi.MmapTicket
import Vfi.FabricNet
import Vfi.FabricRionet.Limits
import Vfi.Completion
import Vfi.DmaChain
import Vfi.SmbCreate
import Vfi.DescGrammar
import Vfi.BindMessage
import Vfi.SrcCoverage
import Vfi.StartRounds
import Vfi.StartRounds.Progress
import Vfi.StartRounds.Bound
import Vfi.EngineHeld
import Vfi.TransferPath
import Vfi.TransferPath.Total
import Vfi.DmaProgram
import Vfi.BindEvents
import Vfi.FabricLink
import Vfi.FabricLink.Doorbells
import Vfi.FabricLink.Answered
import Vfi.FragmentMerge
import Vfi.BindDelete
import Vfi.BindPlace
import Vfi.UserSmb
import Vfi.PageAlloc
import Vfi.OptionLookup
import Vfi.BindTerms
import Vfi.DescMemory
import Vfi.DescFailure
import Vfi.DescClone
import Vfi.ComponentKeys
import Vfi.LocationPath
import Vfi.ReadReplies
import Vfi.ReplySize
import Vfi.FabricMessage
import Vfi.WriteLines
import Vfi.AioReply
import Vfi.EventsStart
import Vfi.EventChain
import Vfi.RingQueue
import Vfi.FabricRionet.Addresses
import Vfi.FabricTx
import Vfi.Lib.SlotTable
import Vfi.Registry
import Vfi.XferFlags
import Vfi.BytesQueued
import Vfi.LoadBalance
import Vfi.ChannelBalance
import Vfi.Lib.FlatMemory
import Vfi.QuerySlots
import Vfi.SrcAlign
import Vfi.FabricExchange
