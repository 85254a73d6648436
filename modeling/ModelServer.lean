import ModelServer.Occurrence
import ModelServer.Loop
import ModelServer.Streaming
import ModelServer.Erasure
import ModelServer.ByteStrings
import ModelServer.StructuredText
import ModelServer.Json
import ModelServer.RapidJson
import ModelServer.JsonText
import ModelServer.Delta
import ModelServer.Qwen3CoderToolParser
import ModelServer.Qwen3CoderDelimiters
import ModelServer.Qwen3CoderChunks
import ModelServer.Qwen3CoderEnvelopes
import ModelServer.Qwen3CoderCallText
import ModelServer.Qwen3CoderPublication
import ModelServer.Qwen3CoderInvocations
import ModelServer.OutputParser
import ModelServer.Qwen3Route
import ModelServer.Qwen3RouteContent
import ModelServer.Qwen3RouteTransition
import ModelServer.Qwen3RouteReasoning
import ModelServer.RouteReset
import ModelServer.Qwen3CoderRedraw
import ModelServer.Gemma4NativeText
import ModelServer.Gemma4UncheckedArguments
import ModelServer.Gemma4Containers
import ModelServer.Gemma4ToolParser
import ModelServer.Gemma4Progress
import ModelServer.Gemma4Publication
import ModelServer.Gemma4Route
import ModelServer.Gemma4HiddenMarkers
import ModelServer.Gemma4Redraw
import ModelServer.ResetRoutes
import ModelServer.TextStreamer
import ModelServer.TextStreamerCompletion
import ModelServer.TextStreamerText
import ModelServer.Responses
import ModelServer.ResponsesLifeCycle
import ModelServer.ResponsesOutputIndex
import ModelServer.RowMajor
import ModelServer.NodeSessionMetadata
import ModelServer.Subsessions
import ModelServer.GatherNodeInputHandler
import ModelServer.Gathering
import ModelServer.Demultiplexing
import ModelServer.DemultiplyGather
import ModelServer.SessionKeys
import ModelServer.DependencyOrder
import ModelServer.PipelineDefinition
import ModelServer.PipelineValidation
import ModelServer.PipelineLevels
import ModelServer.Pipeline
import ModelServer.PipelineSessions
import ModelServer.PipelineDeliveries
import ModelServer.PipelineAccounting
import ModelServer.PipelineTracks
import ModelServer.PipelineCourse
import ModelServer.PipelineExecution
import ModelServer.PipelineRuns
import ModelServer.SessionFlowRuns
import ModelServer.RingBuffer
import ModelServer.Runs
import ModelServer.StreamQueue
import ModelServer.SortedRanges
import ModelServer.OrderedMap
import ModelServer.Model
import ModelServer.PathIndependence
import ModelServer.ReloadModel
import ModelServer.ReloadPhases
import ModelServer.ReloadOutcome
import ModelServer.ModelsConfig
import ModelServer.ModelsConfigEffects
import ModelServer.RejectedEntry
import ModelServer.GuardedResource
import ModelServer.ModelInstanceGuard
import ModelServer.PipelineDefinitionGuard
import ModelServer.UnloadGuards
import ModelServer.LengthPrefixed
import ModelServer.RawContents
import ModelServer.RawContentsDecoders
import ModelServer.PartialMeet
import ModelServer.TensorInfo
import ModelServer.TensorMeet
import ModelServer.TensorMerge
import ModelServer.KeyedFold
import ModelServer.PipelineInputsInfo
import ModelServer.PipelineInputsKept
import ModelServer.PipelineInputsOrder
import ModelServer.StringTensors
import ModelServer.ResponsesUnary
import ModelServer.Chunking
import ModelServer.RerankChunking
import ModelServer.RerankCalculator
import ModelServer.Lfm2Arguments
import ModelServer.Lfm2ToolParser
import ModelServer.Lfm2Chunks
import ModelServer.DelimitedWalk
import ModelServer.CallDeltas
import ModelServer.CallTimeline
import ModelServer.StreamedToolParser
import ModelServer.MarkupCalls
import ModelServer.Minicpm5ToolParser
import ModelServer.Minicpm5Calls
import ModelServer.OnyxToolParser
import ModelServer.OnyxCalls
import ModelServer.StreamedCalls
import ModelServer.WordArrays
import ModelServer.KServe
import ModelServer.RestResponse
import ModelServer.RestEncodings
import ModelServer.BinaryFormats
import ModelServer.RestRequest
import ModelServer.RestRequestData
import ModelServer.RestBodies
import ModelServer.CheckedSteps
import ModelServer.RequestValidation
import ModelServer.ValidatedRequests
import ModelServer.Separators
import ModelServer.PathEscape
import ModelServer.TensorByteCounts
import ModelServer.CycleDetection
import ModelServer.VersionUpdates
import ModelServer.SessionContext
import ModelServer.Tilings
import ModelServer.ShardedOutputs
import ModelServer.GatherShapes
import ModelServer.BinaryInputs
import ModelServer.ModelConfigNode
import ModelServer.ReloadDetection
import ModelServer.ResponsesInputTurns
import ModelServer.DelimiterSearch
import ModelServer.RouteProgress
import ModelServer.ContentParsers
import ModelServer.HeldContent
import ModelServer.JsonReading
import ModelServer.JsonKeptBytes
import ModelServer.JsonIntegers
import ModelServer.RapidJsonNumbers
import ModelServer.Lfm2Literals
import ModelServer.Lfm2Quotes
import ModelServer.Lfm2Values
import ModelServer.DelimiterSkipping
import ModelServer.Lfm2ArgumentFidelity
import ModelServer.PartialJsonBuilder
import ModelServer.CallArrayParser
import ModelServer.PartialJsonScan
import ModelServer.PartialJsonCalls
import ModelServer.JsonTraversal
import ModelServer.CallArrayRuns
import ModelServer.CallArrayCut
import ModelServer.CallArrays
import ModelServer.ConditionVariable
import ModelServer.Executors
import ModelServer.ContinuousBatchingExecutor
import ModelServer.DeltaChannel
import ModelServer.StreamIdGuards
import ModelServer.InferenceExecutor
import ModelServer.GraphQueue
import ModelServer.Subscriptions
import ModelServer.ModelNotifications
import ModelServer.PipelineFactory
import ModelServer.PipelineRevalidation
