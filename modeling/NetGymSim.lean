import NetGymSim.Lib.Machine
import NetGymSim.Lib.SerialNumber
import NetGymSim.Lib.HeapOrder
import NetGymSim.Lib.Buckets
import NetGymSim.Lib.OrderedMap
import NetGymSim.Lib.ExceptFold
import NetGymSim.Lib.SentinelScan
import NetGymSim.Gma.Reordering
import NetGymSim.Gma.ReleaseRules
import NetGymSim.Gma.ReceiverRuns
import NetGymSim.Gma.SplitDelivery
import NetGymSim.Gma.ControlLinks
import NetGymSim.Gma.ControlRuns
import NetGymSim.Gma.TsuNet
import NetGymSim.Gma.DefaultLink
import NetGymSim.Gma.BurstSchedule
import NetGymSim.Gma.GmaHeader
import NetGymSim.Gma.MeasurementLoop
import NetGymSim.Gma.QosAdmission
import NetGymSim.Gma.MeasurementRecord
import NetGymSim.Gma.BurstSizes
import NetGymSim.Gma.DeadLinks
import NetGymSim.Gma.Redistribution
import NetGymSim.Gma.RatioRuns
import NetGymSim.Gma.LinkIndexing
import NetGymSim.Gma.VectorAlignment
import NetGymSim.Gma.SerialMinimum
import NetGymSim.Gma.RttSamples
import NetGymSim.Gma.EmulationRuns
import NetGymSim.Gma.ControlCodec
import NetGymSim.Gma.FqPpp
import NetGymSim.Gma.TtiGrants
import NetGymSim.Gma.SliceIsolation
import NetGymSim.Gma.SplitWeights
import NetGymSim.Gma.RatioSums
import NetGymSim.Gma.SteerDuplicates
import NetGymSim.Gma.ReportAccounts
import NetGymSim.Gma.OwdStability
import NetGymSim.Gma.SliceSums
import NetGymSim.Gma.MarkingFloor
import NetGymSim.Core.HeapRuns
import NetGymSim.Core.CalendarRuns
import NetGymSim.Core.EventLoopRuns
import NetGymSim.Core.MapScheduler
import NetGymSim.Wifi.ReorderRuns
import NetGymSim.Wifi.BlockAckRuns
import NetGymSim.Wifi.BlockAckSizes
import NetGymSim.Internet.TcpRxRuns
import NetGymSim.Internet.Ipv4Runs
import NetGymSim.Internet.TcpTxRuns
import NetGymSim.Internet.TcpTxCounterRuns
import NetGymSim.Internet.TcpTxNextSeg
import NetGymSim.Internet.TcpTxHighestSack
import NetGymSim.Internet.TcpTxSackOrder
import NetGymSim.Olsr.TcProcessing
import NetGymSim.Olsr.MprComputation
import NetGymSim.Internet.SpfAllExits
import NetGymSim.NetworkGym.MeasurementMerge
import NetGymSim.Gma.SliceUpdates
import NetGymSim.Gma.BufferReports
import NetGymSim.Gma.HarqReuse
import NetGymSim.Gma.UplinkRuns
import NetGymSim.Gma.FqPppRounds
import NetGymSim.Gma.PppAqm
import NetGymSim.Network.TagListRuns
import NetGymSim.Network.BufferRuns
import NetGymSim.Network.BufferIsolation
import NetGymSim.Network.BufferStore
import NetGymSim.Wifi.OriginatorBlockAck
import NetGymSim.Network.PacketBounds
import NetGymSim.Internet.TcpRxSackRuns
import NetGymSim.Internet.TcpTransfer
import NetGymSim.Internet.TcpCompletion
import NetGymSim.Internet.Ipv4Overlaps
import NetGymSim.Internet.Ipv4TimeoutRuns
import NetGymSim.Lte.RlcAmHeaderCodec
import NetGymSim.Lte.RlcAmPduSizes
import NetGymSim.Lte.RlcAmStatusRequest
import NetGymSim.Lte.RlcUmLossless
import NetGymSim.Core.Int64x64Division
import NetGymSim.Network.NixVector
import NetGymSim.Olsr.HnaRoutes
import NetGymSim.Olsr.MprChoice
import NetGymSim.TrafficControl.FqCoDelFairness
import NetGymSim.TrafficControl.FqCoDelOverload
