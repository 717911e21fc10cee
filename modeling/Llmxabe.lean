import Llmxabe.Sched.Config
import Llmxabe.Lib.Run
import Llmxabe.Sched.Scheduler
import Llmxabe.Sched.Steps
import Llmxabe.Sched.Ops
import Llmxabe.Sched.Books
import Llmxabe.Sched.Capacity
import Llmxabe.Sched.Accounting
import Llmxabe.Sched.Admission
import Llmxabe.Sched.SlotShare
import Llmxabe.Runtime.Sequence
import Llmxabe.Runtime.Decode
import Llmxabe.Lib.Until
import Llmxabe.Runtime.Plain
import Llmxabe.Runtime.Speculation
import Llmxabe.Runtime.Batch
import Llmxabe.Runtime.Prefill
import Llmxabe.Runtime.Worker
import Llmxabe.Runtime.Progress
import Llmxabe.Runtime.Lockstep
import Llmxabe.Runtime.Life
import Llmxabe.Runtime.Retention
import Llmxabe.Runtime.Draws
import Llmxabe.Cache.Prefix
import Llmxabe.Runtime.Mirror
import Llmxabe.Lib.SlotCache
import Llmxabe.Runtime.DraftCaches
import Llmxabe.Grammar.Machine
import Llmxabe.Lib.Fragment
import Llmxabe.Grammar.Moves
import Llmxabe.Grammar.Reference
import Llmxabe.Grammar.Values
import Llmxabe.Grammar.Calls
import Llmxabe.Grammar.Language
import Llmxabe.Grammar.Vocab
import Llmxabe.Grammar.Constraint
import Llmxabe.Grammar.Completion
import Llmxabe.Cache.Chain
import Llmxabe.Kernels.Dispatch
import Llmxabe.Kernels.Moe
import Llmxabe.Kernels.Tri
import Llmxabe.Lib.DeltaRule
import Llmxabe.Kernels.Gdn
import Llmxabe.Runtime.Shapes
import Llmxabe.Sched.Decodes
import Llmxabe.Sched.Fairness
import Llmxabe.Runtime.Router
import Llmxabe.Cache.Recency
import Llmxabe.Lib.Ranking
import Llmxabe.Runtime.Sampling
import Llmxabe.Runtime.Survivors
import Llmxabe.Lib.RingBuffer
import Llmxabe.Sched.Ngram
import Llmxabe.Sched.NgramMap
import Llmxabe.Lib.Utf8
import Llmxabe.Server.Detokenizer
import Llmxabe.Server.Outputs
import Llmxabe.Server.Streams
import Llmxabe.Server.Agreement
import Llmxabe.Server.Chat
import Llmxabe.Server.Requests
import Llmxabe.Server.Replay
import Llmxabe.Kernels.Conv
import Llmxabe.Kernels.Preprocess
import Llmxabe.Runtime.Rotary
import Llmxabe.Server.Vision
import Llmxabe.Kernels.Quant
import Llmxabe.Gguf.File
import Llmxabe.Gguf.RoundTrip
import Llmxabe.Gguf.Sound
import Llmxabe.Lib.ShortCircuit
import Llmxabe.Grammar.Resolution
import Llmxabe.Kernels.Attention
import Llmxabe.Cache.Snapshots
import Llmxabe.Model.Config
import Llmxabe.Model.Weights
import Llmxabe.Model.Totals
import Llmxabe.Lib.Holding
import Llmxabe.Server.CallParser
import Llmxabe.Server.CallChunks
import Llmxabe.Server.CallSources
import Llmxabe.Server.Generation
import Llmxabe.Server.Spans
import Llmxabe.Server.Delivery
import Llmxabe.Server.Clients
import Llmxabe.Cache.Engine
import Llmxabe.Cache.References
import Llmxabe.Cache.Reuse
import Llmxabe.Server.CallRoundTrip
import Llmxabe.Server.ImageMarkers
import Llmxabe.Server.ImageSpans
import Llmxabe.Grammar.Offered
import Llmxabe.Grammar.Texts
import Llmxabe.Server.ConstrainedCalls
