import AnalyseTCP.Lib.OrdMap
import AnalyseTCP.Lib.Counter
import AnalyseTCP.Lib.Run
import AnalyseTCP.Lib.IntervalMass
import AnalyseTCP.Lib.Buckets
import AnalyseTCP.Connection
import AnalyseTCP.RealLoss
import AnalyseTCP.SequenceNumbers
import AnalyseTCP.Disjointness
import AnalyseTCP.SentCounts
import AnalyseTCP.RecvCounts
import AnalyseTCP.SentState
import AnalyseTCP.AckTimes
import AnalyseTCP.LastSeq
import AnalyseTCP.LossIntervals
import AnalyseTCP.LossBounds
import AnalyseTCP.LossAgreement
import AnalyseTCP.SendAckTimes
import AnalyseTCP.BundleHits
import AnalyseTCP.SentBytes
import AnalyseTCP.PureAcks
import AnalyseTCP.OldData
import AnalyseTCP.Refinement
import AnalyseTCP.ReceiveTimes
import AnalyseTCP.SentFrame
import AnalyseTCP.IntervalTotals
import AnalyseTCP.Receipts
import AnalyseTCP.LatencyVariation
import AnalyseTCP.RecvDiff
import AnalyseTCP.ReceiveClock
import AnalyseTCP.ClockOffset
import AnalyseTCP.MatchedTimes
import AnalyseTCP.DuplicateAcks
import AnalyseTCP.FlagCounts
import AnalyseTCP.PacketCounts
import AnalyseTCP.InsertAdvance
import AnalyseTCP.SendSafety
import AnalyseTCP.TcpOptions
import AnalyseTCP.OptionWalk
import AnalyseTCP.OptionDecoding
import AnalyseTCP.AnalyseInterval
import AnalyseTCP.BackwardScan
import AnalyseTCP.RedundantBytes
import AnalyseTCP.DurationSearch
import AnalyseTCP.UniqueBytes
import AnalyseTCP.Percentiles
import AnalyseTCP.SojournNumbers
import AnalyseTCP.ClockDrift
import AnalyseTCP.ByteCdf
import AnalyseTCP.ArrivalMarks
import AnalyseTCP.SojournTimes
import AnalyseTCP.PayloadSamples
import AnalyseTCP.PacketsInFlight
import AnalyseTCP.PacketSizes
import AnalyseTCP.PacketDetails
import AnalyseTCP.Lib.Keyed
import AnalyseTCP.Lib.Ensures
import AnalyseTCP.Dump
import AnalyseTCP.DumpRuns
import AnalyseTCP.RangeInvariants
import AnalyseTCP.DumpTotals
import AnalyseTCP.FirstSentTime
import AnalyseTCP.CaptureRefinement
import AnalyseTCP.References
import AnalyseTCP.ValidateContent
import AnalyseTCP.GenStatsTotals
import AnalyseTCP.TransmissionTimes
import AnalyseTCP.Aggregates
import AnalyseTCP.AggregateTables
import AnalyseTCP.AckLatency
import AnalyseTCP.ConnectionKeys
import AnalyseTCP.MiniCsv
import AnalyseTCP.OutputFiles
import AnalyseTCP.Throughput
import AnalyseTCP.ThroughputFiles
import AnalyseTCP.PacketFiles
