import NetSim.Scheduler.Splay
import NetSim.Scheduler.HeapScheduler
import NetSim.Tcp.FullTcpScoreboard
import NetSim.Tcp.ScoreBoardRQ
import NetSim.Tcp.Sacker
import NetSim.Tcp.ScoreBoard
import NetSim.Scheduler.TimerHandler
import NetSim.MpSelect.Ttl
import NetSim.Sctp.OrderedDelivery
import NetSim.Sctp.Outstanding
import NetSim.Nix.NixRoute
import NetSim.Queue.Srr
import NetSim.Queue.DrrFair
import NetSim.Aodv.LoopFree
import NetSim.Aodv.Consistency
import NetSim.Rap.MediaSegmentsAdd
import NetSim.Diffusion.AttrOrder
import NetSim.Diffusion.AttrsRoundTrip
import NetSim.Diffusion.Factories
import NetSim.Imep.InOrder
import NetSim.Imep.Retransmit
import NetSim.Tcp.SnoopRuns
import NetSim.Dsr.LearntLinks
import NetSim.Dsdv.LoopFree
import NetSim.Tora.Dag
import NetSim.Tora.Counters
import NetSim.Satellite.HdlcResetTimer
import NetSim.Satellite.HdlcSendBuffer
import NetSim.Pgm.ReceiverNaks
import NetSim.Pgm.Repair
import NetSim.Mcast.SrmLosses
import NetSim.Tcp.ReassemblyQueueReports
import NetSim.Tcp.ScoreBoard1
import NetSim.MpSelect.Selection
import NetSim.MpSelect.PingDelay
import NetSim.Dccp.OptionsRoundTrip
import NetSim.Dccp.NonceEcho
import NetSim.Scheduler.CalendarBookkeeping
import NetSim.LinkState.SequenceNumbers
import NetSim.LinkState.MessageStore
import NetSim.LinkState.RoutesTerminate
import NetSim.Aodv.SendBuffer
import NetSim.Aodv.RouteErrors
import NetSim.Routing.HierLookup
import NetSim.Dsr.CacheReply
import NetSim.Dsr.GratHoldDown
import NetSim.Dsr.NestedErrors
import NetSim.Queue.FairHash
import NetSim.Queue.AckFilter
import NetSim.Queue.Cbq
import NetSim.Classifier.MultiPathFair
import NetSim.Mcast.SrmReceived
import NetSim.Mcast.LmsRequests
import NetSim.Pgm.SenderRepairs
import NetSim.Dsdv.UpdatePacket
import NetSim.Mdart.HelloRoundTrip
import NetSim.Queue.SfqTurns
