import CodeScope.Scheduler.Completeness
import CodeScope.Merge.Union
import CodeScope.Resolver.HardFilters
import CodeScope.Resolver.OrderIndependence
import CodeScope.Resolver.FastPath
import CodeScope.Filter.ModuleScope
import CodeScope.Filter.RootModule
import CodeScope.Store.CsrAtomicity
import CodeScope.Index.Incremental
import CodeScope.Index.PipelineInvariant
import CodeScope.Knowledge.AsyncKnowledge
import CodeScope.Index.CommitReport
import CodeScope.Store.Artifact
import CodeScope.Model.BuildHistory
import CodeScope.Verify.FailedQueries
import CodeScope.Mcp.LineSync
import CodeScope.Index.KnownSpelling
import CodeScope.Filter.IgnoreFiles
import CodeScope.Scheduler.PlanPartition
import CodeScope.Scheduler.QuarantineSearch
import CodeScope.Model.PluginHistory
import CodeScope.Verify.DriftAgreement
import CodeScope.Merge.AtomicMerge
import CodeScope.Filter.DiscoverFiles
import CodeScope.Filter.DirectoryRules
import CodeScope.Scheduler.Allocation
import CodeScope.Scheduler.CorePool
import CodeScope.Scheduler.WorkerOutput
import CodeScope.Query.Subgraph
import CodeScope.Query.Truncation
import CodeScope.Evidence.EvidenceBuilder
import CodeScope.Evidence.RuleParse
import CodeScope.Lsp.Frames
import CodeScope.Lsp.MessageBody
import CodeScope.Query.CommunityClusters
import CodeScope.Resolver.Dispatch
import CodeScope.Resolver.FuzzyResolver
import CodeScope.Store.ImportScopes
import CodeScope.Resolver.DispatchIndex
import CodeScope.Store.FallbackSearch
import CodeScope.Store.Metrics
import CodeScope.Store.ScopeRepair
import CodeScope.Store.SearchCode
import CodeScope.Knowledge.FactAttribution
import CodeScope.Knowledge.ModuleHierarchy
import CodeScope.Store.UnifiedSearch
import CodeScope.Evidence.DetailJson
import CodeScope.Verify.CallComponents
import CodeScope.Verify.CapabilityNames
import CodeScope.Verify.LanguageMentions
import CodeScope.Visitor.CppCalls
import CodeScope.Visitor.CppMembers
import CodeScope.Visitor.PythonCalls
import CodeScope.Graph.CallEdges
import CodeScope.Query.ModuleMap
import CodeScope.Verify.ModuleCoupling
import CodeScope.Visitor.RustImpls
import CodeScope.Visitor.GoInterfaces
import CodeScope.Visitor.CDeclarations
import CodeScope.Query.PathTools
import CodeScope.Resolver.RelativeImports
import CodeScope.Verify.ClaimFields
import CodeScope.Model.ContractMiners
