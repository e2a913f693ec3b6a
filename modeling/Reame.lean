import Reame.Core.KvBudget
import Reame.Core.SequenceContract
import Reame.Core.RealSequences
import Reame.Core.Completion
import Reame.Core.WorkerLoop
import Reame.Speculative.GreedyCalls
import Reame.Speculative.Exactness
import Reame.Arca.WireAgreement
import Reame.Foundation.Streaming
import Reame.Engine.ClassicCache
import Reame.Engine.GreedyStream
import Reame.Engine.ResponseKey
import Reame.Engine.ResponseCache
import Reame.Server.Answers
import Reame.Arca.RespLengths
import Reame.Palimpsest.TornLog
import Reame.Speculative.VocabBounds
import Reame.Speculative.BrokenDraft
import Reame.Engine.SharedCorpus
import Reame.Arca.Replies
import Reame.Arca.Retained
import Reame.Cache.Corruption
import Reame.Cache.RecencyOrder
import Reame.Cache.StoreRefinement
import Reame.Arca.SharedMap
import Reame.Engine.PathAgreement
import Reame.Engine.WarmAhead
import Reame.Engine.Sessions
import Reame.Engine.EarlyConsensus
import Reame.Server.WriterProtocol
import Reame.Server.StreamedText
import Reame.Server.HttpParser
import Reame.Server.Connection
import Reame.Cache.KeyStrength
import Reame.Core.RepeatPenalty
import Reame.Speculative.PromptLookup
import Reame.Core.FinalNumber
import Reame.Core.TextMedoid
import Reame.Core.Nucleus
import Reame.Server.Authorization
import Reame.Server.BusyGate
import Reame.Server.Usage
import Reame.Server.LateConnection
import Reame.Speculative.SampledLaw
import Reame.Utils.Config
import Reame.Utils.ConfigText
import Reame.Utils.ConfigValues
import Reame.Foundation.HeaderBlock
import Reame.Server.ResponseText
import Reame.Server.ClientView
