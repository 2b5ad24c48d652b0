import Langsvr.OrderedEntries
import Langsvr.ListRelations
import Langsvr.Results
import Langsvr.JsonValues
import Langsvr.CodecTypes
import Langsvr.Encoding
import Langsvr.Decoding
import Langsvr.DecodingOutputs
import Langsvr.StructureSlots
import Langsvr.EncodingRules
import Langsvr.DecodingRules
import Langsvr.SchemaMatching
import Langsvr.SchemaReadings
import Langsvr.CodecRoundTrip
import Langsvr.ProtocolExcerpt
import Langsvr.RoundTripReadiness
import Langsvr.OneOfShadowing
import Langsvr.LiteralKinds
import Langsvr.TupleCodecs
import Langsvr.StructureGrammar
import Langsvr.OrderedValues
import Langsvr.ValueEquality
import Langsvr.Comparators
import Langsvr.StaleOutputs
import Langsvr.LspAnyPassThrough
import Langsvr.OwningPointers
import Langsvr.OneOfVariables
import Langsvr.OptionalVariables
import Langsvr.Assignments
import Langsvr.StreamReading
import Langsvr.ContentStream
import Langsvr.ContentFrames
import Langsvr.Occurrences
import Langsvr.TextReplacements
import Langsvr.ReentrantPrograms
import Langsvr.SessionModel
import Langsvr.SessionMessages
import Langsvr.ReceiveBranches
import Langsvr.RequestSteps
import Langsvr.RequestHistories
import Langsvr.PendingRequests
import Langsvr.LostRequests
import Langsvr.ReceiveExecutions
import Langsvr.RequestExecutions
import Langsvr.TableHistories
import Langsvr.FailedRequests
import Langsvr.Dispatch
import Langsvr.RequestAnswers
import Langsvr.SessionNetwork
import Langsvr.RequestLedger
import Langsvr.NetworkInvariant
import Langsvr.CallBounds
import Langsvr.MethodCalls
import Langsvr.NetworkSteps
import Langsvr.RequestCorrelation
import Langsvr.NetworkProgress
import Langsvr.GraphTraversals
import Langsvr.MetaModels
import Langsvr.Protocols
import Langsvr.NameCases
import Langsvr.Resolver
import Langsvr.ResolverRules
import Langsvr.AcceptedModels
import Langsvr.DeclarationSorts
import Langsvr.GeneratedCode
import Langsvr.TemplateRules
import Langsvr.GeneratedStructures
import Langsvr.GeneratedMembers
import Langsvr.StringLiterals
import Langsvr.ExactDoubles
import Langsvr.GeneratedEnumerations
import Langsvr.GeneratedFunctions
import Langsvr.TypedDeclarations
import Langsvr.RecursionLimits
import Langsvr.GeneratedObjects
import Langsvr.GeneratedCodecs
import Langsvr.GeneratedEncoders
import Langsvr.MetaModelMeanings
import Langsvr.CompiledModels
import Langsvr.Conformance
import Langsvr.GeneratedProtocols
import Langsvr.GeneratedMessages
import Langsvr.PromiseSources
import Langsvr.ConformingMessages
import Langsvr.MessageSurvival
import Langsvr.OwnedTrees
import Langsvr.OwningMemories
import Langsvr.RecursiveOptionals
import Langsvr.OptionalPrograms
import Langsvr.OptionalRuns
import Langsvr.SearchOrders
import Langsvr.TypeReferences
import Langsvr.SortedDeclarations
import Langsvr.SearchStops
import Langsvr.UnsupportedModels
import Langsvr.ResolvedReferences
import Langsvr.LinkedLists
import Langsvr.BlockAllocators
import Langsvr.AllocatorBlocks
import Langsvr.AllocatorChunks
import Langsvr.ObjectPositions
import Langsvr.AllocatorRuns
import Langsvr.ObjectIteration
import Langsvr.IteratorReversals
import Langsvr.OwnershipLedgers
import Langsvr.ObjectLifetimes
