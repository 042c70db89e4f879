import StableModels.Directory
import StableModels.Main
import StableModels.Proofs.CommandLine
import StableModels.Proofs.Index
import StableModels.Proofs.Inertia
import StableModels.Proofs.Json
import StableModels.Proofs.MaxQueue
import StableModels.Proofs.Partition
import StableModels.Proofs.Spelling
import StableModels.Proofs.Unification
import StableModels.Proofs.Visitor
import StableModels.RuleSet.Format
