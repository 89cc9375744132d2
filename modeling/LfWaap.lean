import LfWaap.Application.CalibrateModel
import LfWaap.Hmm.BlindSpots
import LfWaap.Hmm.Chance
import LfWaap.Hmm.FalsePositives
import LfWaap.Hmm.Fusion
import LfWaap.Hmm.Isolation
import LfWaap.Hmm.LabeledFlows
import LfWaap.Hmm.PerSymbol
import LfWaap.Hmm.Ranking
import LfWaap.Hmm.Retraining
import LfWaap.Hmm.Runs
import LfWaap.Hmm.Suspicion
import LfWaap.Hmm.SymbolContract
import LfWaap.Hmm.TargetRate
import LfWaap.Hmm.WindowForward
import LfWaap.Hmm.WindowTokens
import LfWaap.LearningData.BalancedSampler
import LfWaap.LearningData.ColumnOrder
import LfWaap.LearningData.CompareModels
import LfWaap.LearningData.CoveredCounts
import LfWaap.LearningData.Delivery
import LfWaap.LearningData.Demo
import LfWaap.LearningData.KafkaPipeline
import LfWaap.LearningData.ReportCard
import LfWaap.LearningData.RequestTarget
import LfWaap.LearningData.Serving
import LfWaap.Ruleset.RuleSetDetector
import LfWaap.Streaming.Aborts
import LfWaap.Streaming.Layers
import LfWaap.Streaming.Redelivery
import LfWaap.Streaming.TrafficSource
