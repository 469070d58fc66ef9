import Ark.AgentLoop
import Ark.AgentRuns
import Ark.AgentTransparency
import Ark.ApprovalGate
import Ark.ApprovalTask
import Ark.ApprovedCalls
import Ark.Bookmark
import Ark.Conversation
import Ark.DeletePreconditions
import Ark.FanOut
import Ark.Finalizers
import Ark.GracefulDeletion
import Ark.Handler
import Ark.InMemorySessions
import Ark.InitialSync
import Ark.KeyedTable
import Ark.ListWatch
import Ark.MatchedSessions
import Ark.Mirrors
import Ark.OptimisticConcurrency
import Ark.Pagination
import Ark.PhaseConvergence
import Ark.PurgeFloor
import Ark.QueryController
import Ark.QueryEffects
import Ark.QueryOperations
import Ark.QueryStream
import Ark.ReadCommitted
import Ark.RedisChunks
import Ark.Registry
import Ark.RegistryInvariant
import Ark.Rejection
import Ark.RelatedSessions
import Ark.RelistFilter
import Ark.ResourceTable
import Ark.SelectorWatch
import Ark.SerialSessions
import Ark.SessionAggregate
import Ark.SessionBackends
import Ark.SessionHeaders
import Ark.SessionRuns
import Ark.SessionShares
import Ark.SessionTables
import Ark.SessionTwins
import Ark.SseWatch
import Ark.Team
import Ark.TeamComplete
import Ark.TeamRuns
import Ark.TeamTransparency
import Ark.TerminalPhases
import Ark.ToolComplete
import Ark.WalConsumer
import Ark.WatchDelivery
import Ark.WatchInvariant
import Ark.WatchOrder
import Ark.CompletionStream
import Ark.AnthropicFormat
import Ark.TeamGraph
import Ark.PartialTool
import Ark.A2AStatus
import Ark.TaskLifecycle
import Ark.GoDuration
import Ark.GoStruct
import Ark.ApprovalEncoding
import Ark.CursorPages
import Ark.BrokerStreams
import Ark.MessageHistory
import Ark.ChunkPublishing
import Ark.TeamShape
import Ark.ToolSync
import Ark.CivilTime
import Ark.TokenSecret
import Ark.ClientCredentials
import Ark.TokenMinting
import Ark.TokenRenewal
import Ark.McpAuthFlows
import Ark.McpAuthLogins
import Ark.IsoTime
import Ark.ApiKeys
import Ark.MarketplaceSources
import Ark.PagedScan
import Ark.PageEnds
import Ark.GoMerge
import Ark.StatusReplacement
import Ark.RowHistory
import Ark.GoBytes
import Ark.SseDecoder
import Ark.GoFloat
import Ark.GoUrl
import Ark.UrlTemplate
import Ark.UrlTemplate
import Ark.EngineSelection
import Ark.DescendingPages
import Ark.TracePages
import Ark.TracePages
import Ark.ConversationOrder
import Ark.JsonReplacement
import Ark.Utf8Pieces
import Ark.NdjsonIngest
import Ark.JsonReplacement
import Ark.Utf8Pieces
import Ark.NdjsonIngest
import Ark.A2APolling
import Ark.ApprovalCascade
import Ark.JsonValues
import Ark.Float64
import Ark.RowEncoding
import Ark.SignedWords
import Ark.PollBackoff
import Ark.ToolRetry
import Ark.OrderedRegex
import Ark.MaskedText
import Ark.CredentialPatterns
import Ark.RedactViews
import Ark.KeyAnchored
import Ark.ShapeMatches
import Ark.ReplacedFields
import Ark.Redaction
import Ark.RedactParity
import Ark.ApiKeyNames
import Ark.UriSegments
import Ark.ServiceProxy
import Ark.ServiceAnswers
import Ark.RoseHeap
import Ark.HrefTargets
import Ark.SvgSanitize
import Ark.SvgDocuments
import Ark.RowEvolution
import Ark.StreamContents
import Ark.PercentQuote
import Ark.BrokerUrls
import Ark.FileDownloads
import Ark.WriteHistory
