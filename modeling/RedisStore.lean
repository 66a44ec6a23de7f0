import RedisStore.Json.Text
import RedisStore.Json.RoundTrip
import RedisStore.Json.Coercion
import RedisStore.InitCommit
import RedisStore.Upsert
import RedisStore.FailedReads
import RedisStore.SharedClient
import RedisStore.Conversation
import RedisStore.Refinement
import RedisStore.AllOrNothing
import RedisStore.Converge
import RedisStore.FailFast
import RedisStore.Isolation
import RedisStore.Membership
import RedisStore.Reports
import RedisStore.WatchLeft
import RedisStore.Retries
import RedisStore.ReadsAgree
import RedisStore.CallingForms
import RedisStore.Work
import RedisStore.CommitOnce
import RedisStore.Sessions
import RedisStore.Intact
import RedisStore.AnswerOrder
import RedisStore.AtomicReads
import RedisStore.Logging
import RedisStore.Lifecycle
import RedisStore.Provenance
import RedisStore.Initialized
import RedisStore.Segments
