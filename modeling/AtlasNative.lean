import AtlasNative.Lib.AssocMap
import AtlasNative.Lib.Batches
import AtlasNative.Lib.ExactDouble
import AtlasNative.Lib.ExceptRuns
import AtlasNative.Lib.Extremes
import AtlasNative.Lib.Grouping
import AtlasNative.Lib.HighestBit
import AtlasNative.Lib.Interleavings
import AtlasNative.Lib.Numerals
import AtlasNative.Lib.Polyline
import AtlasNative.Lib.Replacement
import AtlasNative.Lib.RobinHood
import AtlasNative.Lib.Rolling
import AtlasNative.Lib.ShiftHash
import AtlasNative.Lib.SortedTable
import AtlasNative.Lib.StepFunctions
import AtlasNative.Lib.Substitution
import AtlasNative.Lib.TimedRuns
import AtlasNative.Lib.Totals
import AtlasNative.Machine
import AtlasNative.FlatHashMap
import AtlasNative.FlatHashMapCalls
import AtlasNative.FlatHashMapRuns
import AtlasNative.Strings
import AtlasNative.StringPool
import AtlasNative.ExpandVars
import AtlasNative.Tags
import AtlasNative.TagTables
import AtlasNative.Query
import AtlasNative.QueryEquality
import AtlasNative.QueryMatching
import AtlasNative.Dnf
import AtlasNative.QueryIndex
import AtlasNative.QueryIndexAgreement
import AtlasNative.QueryIndexHash
import AtlasNative.Expression
import AtlasNative.Aggregation
import AtlasNative.GroupByPartition
import AtlasNative.KeepDropTags
import AtlasNative.Tokenizer
import AtlasNative.TokenizerReads
import AtlasNative.Vocabulary
import AtlasNative.Interpreter
import AtlasNative.OperandSafety
import AtlasNative.ProgramErrors
import AtlasNative.ProgramText
import AtlasNative.BooleanPrograms
import AtlasNative.ProgramLengths
import AtlasNative.DnfLiterals
import AtlasNative.ExpressionPrograms
import AtlasNative.Rollup
import AtlasNative.StepNumber
import AtlasNative.StepNumberRuns
import AtlasNative.StepThreads
import AtlasNative.StepLinearization
import AtlasNative.CounterThreads
import AtlasNative.Meters
import AtlasNative.WrappedClock
import AtlasNative.SummaryTotals
import AtlasNative.DistributionSummary
import AtlasNative.Consolidation
import AtlasNative.ConsolidationReference
import AtlasNative.ConsolidationRuns
import AtlasNative.ConsolidationExpiry
import AtlasNative.ConsolidationInts
import AtlasNative.AtlasRegistry
import AtlasNative.MeterClasses
import AtlasNative.SharedRegistry
import AtlasNative.HeldMeters
import AtlasNative.HashedRegistry
import AtlasNative.RegistryThreads
import AtlasNative.RegistryPointers
import AtlasNative.RegistrySharing
import AtlasNative.LookupKinds
import AtlasNative.CounterLog
import AtlasNative.HeldCounter
import AtlasNative.RegistryRefinement
import AtlasNative.RegistryRuns
import AtlasNative.MainRegistry
import AtlasNative.CounterRuns
import AtlasNative.MinuteReports
import AtlasNative.SubscriptionManager
import AtlasNative.Flush
import AtlasNative.Shutdown
import AtlasNative.StopConservation
import AtlasNative.Restarts
import AtlasNative.SubscriptionSchedule
import AtlasNative.SubscriptionReports
import AtlasNative.ClientThreads
import AtlasNative.HttpReplies
import AtlasNative.Inflate
import AtlasNative.SubscriptionPayload
import AtlasNative.SubscriptionRefresh
import AtlasNative.EtagHistory
import AtlasNative.HttpConfig
import AtlasNative.HttpPost
import AtlasNative.Validation
import AtlasNative.AnalyzeTags
import AtlasNative.TagEncoding
import AtlasNative.Publisher
import AtlasNative.PublishAccounts
import AtlasNative.MainPayloads
import AtlasNative.TagCollisions
import AtlasNative.BatchLoops
import AtlasNative.PercentileBuckets
import AtlasNative.PercentileIndex
import AtlasNative.Percentiles
import AtlasNative.PercentileMeters
import AtlasNative.BucketFunctions
import AtlasNative.TimeBuckets
import AtlasNative.SizeBuckets
