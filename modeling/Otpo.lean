import Otpo.Library.Odometer
import Otpo.Library.Postfix
import Otpo.Library.Orbit
import Otpo.Library.FirstMinimum
import Otpo.Library.Tiling
import Otpo.Library.KeyedList
import Otpo.Library.Tokenizer
import Otpo.Library.BoundedLines
import Otpo.Library.Progression
import Otpo.Library.Traced
import Otpo.Library.FileHandle
import Otpo.ParamList
import Otpo.Combinations
import Otpo.RpnStack
import Otpo.RpnSemantics
import Otpo.RpnReading
import Otpo.RpnAgreement
import Otpo.RpnBalance
import Otpo.Enumeration
import Otpo.ValueOrder
import Otpo.FunctionArray
import Otpo.ListOrder
import Otpo.Statistics
import Otpo.Emethod
import Otpo.TwokFactorial
import Otpo.Request
import Otpo.TuningLoop
import Otpo.Decision
import Otpo.BruteForce
import Otpo.BadRuns
import Otpo.BestCombination
import Otpo.InterruptResume
import Otpo.TwokCorners
import Otpo.TwokReduction
import Otpo.TwokKnowledge
import Otpo.TwokSearch
import Otpo.TwokRun
import Otpo.DefaultSearch
import Otpo.TwokResume
import Otpo.CornerRegistration
import Otpo.Attribution
import Otpo.PerfHypothesis
import Otpo.AttributedSearch
import Otpo.AttributedRun
import Otpo.RunMeasurements
import Otpo.TwokOptimum
import Otpo.ResultBuckets
import Otpo.ReportedMetric
import Otpo.ValueMerge
import Otpo.ValueIntersection
import Otpo.IntersectionExact
import Otpo.NumberText
import Otpo.InterruptFile
import Otpo.ResultFile
import Otpo.ResultLines
import Otpo.ResultRoundTrip
import Otpo.ParseLine
import Otpo.UpdateRequest
import Otpo.ScannerRuns
import Otpo.ReportedOnce
import Otpo.OutputFile
import Otpo.ParameterLines
import Otpo.FormatLine
import Otpo.ParseFormat
import Otpo.LineReading
import Otpo.ParseTrace
import Otpo.PassAgreement
import Otpo.InitializeList
import Otpo.RangeTraversal
import Otpo.RangeOutcome
import Otpo.RangeScaling
import Otpo.LineWidths
import Otpo.GeneratedInput
import Otpo.GeneratedBounds
import Otpo.NextInput
import Otpo.Environment
import Otpo.ExportedEnvironment
import Otpo.ValueCoding
import Otpo.InitializeTrace
import Otpo.Library.RelatedLists
import Otpo.SpecifiedParameters
import Otpo.ArrayBounds
import Otpo.InterruptRestore
import Otpo.CommandLine
import Otpo.ObjectRegistry
import Otpo.Library.Compaction
import Otpo.WorkingSet
import Otpo.Library.SignCharacters
import Otpo.SignSubsets
import Otpo.SignTable
import Otpo.Library.FirstFit
import Otpo.Library.Substring
import Otpo.ValueHistogram
import Otpo.ShrinkAlignment
import Otpo.ConfigFiles
import Otpo.Library.ExchangeSort
import Otpo.Library.Tally
import Otpo.MessageList
import Otpo.MessageHistogram
import Otpo.HypothesisOdometer
import Otpo.HypothesisFresh
import Otpo.HypothesisEvaluation
import Otpo.HypothesisCall
import Otpo.HypothesisRun
import Otpo.Library.AlignedLists
import Otpo.Library.RelatedResults
import Otpo.AttributeCodes
import Otpo.CodedEvaluation
import Otpo.CodedSearch
import Otpo.CodeIndependence
import Otpo.Library.TextBuffer
import Otpo.ValueNames
import Otpo.Library.AsynchronousRuns
import Otpo.Library.MessagePassing
import Otpo.Library.LockStep
import Otpo.MpiCalls
import Otpo.Allgatherv
import Otpo.AllgathervPlan
import Otpo.Library.WrapAround
import Otpo.AllgathervRotation
import Otpo.AllgathervNeighbors
import Otpo.Library.BitPartner
import Otpo.AllgathervDoubling
import Otpo.PersonalExchange
import Otpo.Alltoall
import Otpo.AlltoallRounds
import Otpo.AlltoallBruck
import Otpo.Alltoallv
import Otpo.Library.EarlyReceives
import Otpo.Library.OrderedRounds
import Otpo.Library.Combining
import Otpo.Library.SpanningTree
import Otpo.ReduceTopo
import Otpo.TopologySpans
import Otpo.TopologyLevels
import Otpo.TopologyBinomial
import Otpo.TopologyChain
import Otpo.TopologyInOrder
import Otpo.Reduce
import Otpo.ReduceOverlap
import Otpo.ReduceRounds
import Otpo.ReduceTotals
import Otpo.ReduceRun
import Otpo.ReduceCalls
import Otpo.ReduceLinear
import Otpo.Allreduce
import Otpo.AllreduceBlocks
import Otpo.AllreduceRing
import Otpo.AllreduceRounds
import Otpo.AllreduceLinear
