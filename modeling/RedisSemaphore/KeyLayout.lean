import Mathlib.Data.List.Basic
import Mathlib.Logic.Function.Basic

/-!
# The names of the Redis keys

Names of semaphores, limiters and queues are free-form. A key is a prefix built from the namespace
and the name, and fields after it, each behind a colon. The fields hold no colon, so the last colon
of a key splits off its last field, whatever the name contains (`joined_inj`).
-/

namespace RedisSemaphore.KeyLayout

/-! ## Splitting at the last separator -/

/-- Two lists that end in a separator and a part without one. -/
theorem split_last {α : Type*} {c : α} {a b s t : List α} (hs : c ∉ s) (ht : c ∉ t)
    (h : a ++ c :: s = b ++ c :: t) : a = b ∧ s = t := by
  rcases List.append_eq_append_iff.mp h with ⟨mid, hb, hmid⟩ | ⟨mid, ha, hmid⟩
  · cases mid with
    | nil =>
      rw [List.append_nil] at hb
      exact ⟨hb.symm, (List.cons.inj hmid).2⟩
    | cons x mid =>
      refine absurd ?_ hs
      rw [(List.cons.inj hmid).2]
      simp
  · cases mid with
    | nil =>
      rw [List.append_nil] at ha
      exact ⟨ha, (List.cons.inj hmid).2.symm⟩
    | cons x mid =>
      refine absurd ?_ ht
      rw [(List.cons.inj hmid).2]
      simp

/-- `f"{start}:{field}"`. -/
def joined (start field : String) : String := start ++ ":" ++ field

/-- A key determines its last field and what stands before it. -/
theorem joined_inj {start start' field field' : String} (hfield : ':' ∉ field.toList)
    (hfield' : ':' ∉ field'.toList) (h : joined start field = joined start' field') :
    start = start' ∧ field = field' := by
  have hlist : start.toList ++ ':' :: field.toList = start'.toList ++ ':' :: field'.toList := by
    have h' := congrArg String.toList h
    unfold joined at h'
    simpa [String.toList_append] using h'
  obtain ⟨hstart, hend⟩ := split_last hfield hfield' hlist
  exact ⟨String.toList_injective hstart, String.toList_injective hend⟩

/-! ## The prefix -/

/-- The `_key_prefix` of a semaphore and of a limiter, and the `_prefix` of a queue: the namespace
and the name, as one hash tag in a cluster. -/
def keyPrefix (ns : String) (clusterHashTags : Bool) (name : String) : String :=
  if clusterHashTags then "\x7b" ++ joined ns name ++ "\x7d" else joined ns name

/-- In one namespace, the prefix determines the name. -/
theorem keyPrefix_injective (ns : String) (clusterHashTags : Bool) :
    Function.Injective (keyPrefix ns clusterHashTags) := by
  intro name name' h
  have hjoined : joined ns name = joined ns name' := by
    unfold keyPrefix at h
    cases clusterHashTags with
    | false => exact h
    | true =>
      simp only [if_true] at h
      rw [String.append_left_inj, String.append_right_inj] at h
      exact h
  unfold joined at hjoined
  rw [String.append_right_inj] at hjoined
  exact hjoined

/-! ## Semaphores -/

/-- The part of a `SemaphoreConfig` that names the keys. -/
structure SemaphoreConfig where
  ns : String
  name : String
  clusterHashTags : Bool

namespace SemaphoreConfig

/-- `_key_prefix`, the part that all keys of one semaphore share. With `cluster_hash_tags` it is put
in braces, to be the hash tag. -/
def keyPrefix (config : SemaphoreConfig) : String :=
  KeyLayout.keyPrefix config.ns config.clusterHashTags config.name

/-- `owners_key`, the sorted set of the slots. -/
def ownersKey (config : SemaphoreConfig) : String := joined config.keyPrefix "owners"

/-- `fencing_key`, the counter of the fencing tokens. -/
def fencingKey (config : SemaphoreConfig) : String := joined config.keyPrefix "fencing"

/-- `queue_key`, the list that wakes one waiter. -/
def queueKey (config : SemaphoreConfig) : String := joined config.keyPrefix "queue"

end SemaphoreConfig

/-- The keys of one semaphore. -/
inductive SemaphoreKey
  | owners | fencing | queue
  deriving DecidableEq, Repr

/-- The last field of the key. -/
def SemaphoreKey.field : SemaphoreKey → String
  | owners => "owners"
  | fencing => "fencing"
  | queue => "queue"

/-- The key of a kind. -/
def SemaphoreConfig.key (config : SemaphoreConfig) : SemaphoreKey → String
  | .owners => config.ownersKey
  | .fencing => config.fencingKey
  | .queue => config.queueKey

/-- Every key of a semaphore is its prefix, a colon and a fixed word. -/
theorem SemaphoreConfig.key_eq (config : SemaphoreConfig) (kind : SemaphoreKey) :
    config.key kind = joined config.keyPrefix kind.field := by
  cases kind with
  | owners => rfl
  | fencing => rfl
  | queue => rfl

/-- None of the words has a colon, so the last colon of a key is the one before its word. -/
theorem SemaphoreKey.colon_notMem (kind : SemaphoreKey) : ':' ∉ kind.field.toList := by
  cases kind with
  | owners => decide
  | fencing => decide
  | queue => decide

/-- The words differ. -/
theorem SemaphoreKey.field_injective : Function.Injective field := by
  intro a b h
  cases a with
  | owners => cases b <;> simp [field] at h ⊢
  | fencing => cases b <;> simp [field] at h ⊢
  | queue => cases b <;> simp [field] at h ⊢

/-- Semaphores of one namespace share no key, unless they have one name. -/
theorem semaphoreKey_injective (ns : String) (clusterHashTags : Bool) :
    Function.Injective fun k : String × SemaphoreKey =>
      (SemaphoreConfig.mk ns k.1 clusterHashTags).key k.2 := by
  rintro ⟨name, kind⟩ ⟨name', kind'⟩ h
  simp only [SemaphoreConfig.key_eq] at h
  obtain ⟨hbefore, hfield⟩ := joined_inj kind.colon_notMem kind'.colon_notMem h
  obtain rfl : kind = kind' := SemaphoreKey.field_injective hfield
  obtain rfl : name = name' := keyPrefix_injective ns clusterHashTags hbefore
  rfl

/-! ## Rate limiters -/

/-- A name that `RateLimit` accepts. -/
structure LimitName where
  name : String
  ne_empty : name ≠ ""
  colon_notMem : ':' ∉ name.toList

/-- The part of a `RateLimiterConfig` that names the keys. -/
structure RateLimiterConfig where
  ns : String
  name : String
  clusterHashTags : Bool

namespace RateLimiterConfig

/-- `_key_prefix`, made like that of a semaphore. -/
def keyPrefix (config : RateLimiterConfig) : String :=
  KeyLayout.keyPrefix config.ns config.clusterHashTags config.name

/-- `log_key`, the sorted set of what was recorded. -/
def logKey (config : RateLimiterConfig) (limit : LimitName) : String :=
  joined (joined config.keyPrefix limit.name) "log"

/-- `total_key`, the counter of its sum. -/
def totalKey (config : RateLimiterConfig) (limit : LimitName) : String :=
  joined (joined config.keyPrefix limit.name) "total"

end RateLimiterConfig

/-- The keys of the limiters of one namespace. -/
inductive LimiterKey
  | log (limiter : String) (limit : LimitName)
  | total (limiter : String) (limit : LimitName)

/-- The key of one limit of one limiter. -/
def LimiterKey.key (ns : String) (clusterHashTags : Bool) : LimiterKey → String
  | log limiter limit => (RateLimiterConfig.mk ns limiter clusterHashTags).logKey limit
  | total limiter limit => (RateLimiterConfig.mk ns limiter clusterHashTags).totalKey limit

/-- What stands before the last field of a limiter's key determines the limiter and the limit. -/
theorem limiter_inj {ns limiter limiter' : String} {clusterHashTags : Bool}
    {limit limit' : LimitName}
    (h : joined (keyPrefix ns clusterHashTags limiter) limit.name =
      joined (keyPrefix ns clusterHashTags limiter') limit'.name) :
    limiter = limiter' ∧ limit = limit' := by
  obtain ⟨hbefore, hname⟩ := joined_inj limit.colon_notMem limit'.colon_notMem h
  refine ⟨keyPrefix_injective ns clusterHashTags hbefore, ?_⟩
  cases limit
  cases limit'
  cases hname
  rfl

/-- Keys of different limits, or of different limiters, are different. -/
theorem limiterKey_injective (ns : String) (clusterHashTags : Bool) :
    Function.Injective (LimiterKey.key ns clusterHashTags) := by
  have hlog : ':' ∉ "log".toList := by decide
  have htotal : ':' ∉ "total".toList := by decide
  intro a b h
  cases a with
  | log limiter limit =>
    cases b with
    | log limiter' limit' =>
      obtain ⟨rfl, rfl⟩ := limiter_inj (joined_inj hlog hlog h).1
      rfl
    | total limiter' limit' => exact absurd (joined_inj hlog htotal h).2 (by decide)
  | total limiter limit =>
    cases b with
    | log limiter' limit' => exact absurd (joined_inj htotal hlog h).2 (by decide)
    | total limiter' limit' =>
      obtain ⟨rfl, rfl⟩ := limiter_inj (joined_inj htotal htotal h).1
      rfl

/-! ## Queues -/

/-- A job id, `uuid4().hex`. -/
structure JobId where
  hex : String
  length_eq : hex.length = 32
  isHexDigit : ∀ c ∈ hex.toList, c ∈ "0123456789abcdefABCDEF".toList

/-- The part of a `DispatchConfig` that names the keys. -/
structure DispatchConfig where
  ns : String
  clusterHashTags : Bool

/-! ### `_Keys` -/

namespace DispatchConfig

/-- `_prefix` of a queue. -/
def keyPrefix (config : DispatchConfig) (queue : String) : String :=
  KeyLayout.keyPrefix config.ns config.clusterHashTags queue

/-- The stream of the jobs. -/
def stream (config : DispatchConfig) (queue : String) : String :=
  joined (config.keyPrefix queue) "stream"

/-- The list a submitter waits at. -/
def reply (config : DispatchConfig) (queue : String) (job : JobId) : String :=
  joined (joined (config.keyPrefix queue) "reply") job.hex

/-- The key that makes a submission count once. -/
def submitMarker (config : DispatchConfig) (queue : String) (job : JobId) : String :=
  joined (joined (config.keyPrefix queue) "submit") job.hex

/-- The name of the semaphore that elects the leader of a queue. -/
def leaderName (queue : String) : String := joined queue "leader"

/-- The owners key of that semaphore, as the enqueue script is handed it. -/
def leaderOwners (config : DispatchConfig) (queue : String) : String :=
  joined (KeyLayout.keyPrefix config.ns config.clusterHashTags (leaderName queue)) "owners"

/-- The `Mutex` that `_elect` makes for the queue. -/
def leaderMutex (config : DispatchConfig) (queue : String) : SemaphoreConfig :=
  ⟨config.ns, leaderName queue, config.clusterHashTags⟩

end DispatchConfig

/-- The keys of the queues of one namespace, those of their leadership mutexes among them. -/
inductive DispatchKey
  | stream (queue : String)
  | reply (queue : String) (job : JobId)
  | submitMarker (queue : String) (job : JobId)
  | leader (queue : String) (kind : SemaphoreKey)

namespace DispatchKey

/-- The key of a kind; those of the claim mutex are the keys of a semaphore. -/
def key (config : DispatchConfig) : DispatchKey → String
  | stream queue => config.stream queue
  | reply queue job => config.reply queue job
  | submitMarker queue job => config.submitMarker queue job
  | leader queue kind => (config.leaderMutex queue).key kind

/-- What stands before the last colon of the key. -/
def start (config : DispatchConfig) : DispatchKey → String
  | stream queue => config.keyPrefix queue
  | reply queue _ => joined (config.keyPrefix queue) "reply"
  | submitMarker queue _ => joined (config.keyPrefix queue) "submit"
  | leader queue _ => (config.leaderMutex queue).keyPrefix

/-- What stands behind it. -/
def field : DispatchKey → String
  | stream _ => "stream"
  | reply _ job => job.hex
  | submitMarker _ job => job.hex
  | leader _ kind => kind.field

/-- Every key of a queue is a prefix, a colon and a last field. -/
theorem key_eq (config : DispatchConfig) (k : DispatchKey) :
    k.key config = joined (k.start config) k.field := by
  cases k with
  | stream queue => rfl
  | reply queue job => rfl
  | submitMarker queue job => rfl
  | leader queue kind => exact SemaphoreConfig.key_eq _ kind

end DispatchKey

/-- A job identifier is hexadecimal. -/
theorem JobId.colon_notMem (job : JobId) : ':' ∉ job.hex.toList := by
  intro hmem
  have hdigit := job.isHexDigit ':' hmem
  revert hdigit
  decide

/-- No last field has a colon. -/
theorem DispatchKey.colon_notMem (k : DispatchKey) : ':' ∉ k.field.toList := by
  cases k with
  | stream queue =>
    show ':' ∉ "stream".toList
    decide
  | reply queue job => exact job.colon_notMem
  | submitMarker queue job => exact job.colon_notMem
  | leader queue kind => exact kind.colon_notMem

/-- A job id is longer than the other fields. -/
theorem JobId.ne_of_length (job : JobId) {field : String} (h : field.length ≠ 32) :
    job.hex ≠ field := by
  intro heq
  apply h
  rw [← heq]
  exact job.length_eq

/-- A job identifier is longer than the word `stream`, so a reply list is not the stream. -/
theorem JobId.ne_stream (job : JobId) : job.hex ≠ "stream" := job.ne_of_length (by decide)

/-- Nor is it the word of a semaphore's key. -/
theorem JobId.ne_kind (job : JobId) (kind : SemaphoreKey) : job.hex ≠ kind.field := by
  apply job.ne_of_length
  cases kind <;> decide

/-- A job identifier is its digits. -/
theorem JobId.eq_of_hex {job job' : JobId} (h : job.hex = job'.hex) : job = job' := by
  cases job
  cases job'
  cases h
  rfl

/-- The words of a semaphore's keys are not `stream`. -/
theorem SemaphoreKey.ne_stream (kind : SemaphoreKey) : kind.field ≠ "stream" := by
  cases kind <;> decide

/-- Two queues have two claim mutexes. -/
theorem leaderName_injective : Function.Injective DispatchConfig.leaderName := by
  intro queue queue' h
  exact (joined_inj (by decide) (by decide) h).1

/-- The keys of a namespace's queues are different, over all kinds, queues and job ids. -/
theorem dispatchKey_injective (config : DispatchConfig) :
    Function.Injective (DispatchKey.key config) := by
  have hreply : ':' ∉ "reply".toList := by decide
  have hsubmit : ':' ∉ "submit".toList := by decide
  have hqueue := keyPrefix_injective config.ns config.clusterHashTags
  intro a b h
  rw [a.key_eq, b.key_eq] at h
  obtain ⟨hstart, hfield⟩ := joined_inj a.colon_notMem b.colon_notMem h
  cases a with
  | stream queue =>
    cases b with
    | stream queue' => rw [hqueue hstart]
    | reply queue' job' => exact absurd hfield.symm job'.ne_stream
    | submitMarker queue' job' => exact absurd hfield.symm job'.ne_stream
    | leader queue' kind' => exact absurd hfield.symm kind'.ne_stream
  | reply queue job =>
    cases b with
    | stream queue' => exact absurd hfield job.ne_stream
    | reply queue' job' =>
      rw [hqueue (joined_inj hreply hreply hstart).1, JobId.eq_of_hex hfield]
    | submitMarker queue' job' =>
      exact absurd (joined_inj hreply hsubmit hstart).2 (by decide)
    | leader queue' kind' => exact absurd hfield (job.ne_kind kind')
  | submitMarker queue job =>
    cases b with
    | stream queue' => exact absurd hfield job.ne_stream
    | reply queue' job' =>
      exact absurd (joined_inj hsubmit hreply hstart).2 (by decide)
    | submitMarker queue' job' =>
      rw [hqueue (joined_inj hsubmit hsubmit hstart).1, JobId.eq_of_hex hfield]
    | leader queue' kind' => exact absurd hfield (job.ne_kind kind')
  | leader queue kind =>
    cases b with
    | stream queue' => exact absurd hfield kind.ne_stream
    | reply queue' job' => exact absurd hfield.symm (job'.ne_kind kind)
    | submitMarker queue' job' => exact absurd hfield.symm (job'.ne_kind kind)
    | leader queue' kind' =>
      rw [leaderName_injective (hqueue hstart), SemaphoreKey.field_injective hfield]

/-- **Different names never share keys.** In one namespace, with or without hash tags: the keys of
queues are different over all kinds, queues and job ids, and `leader_owners` is the owners key of
the queue's mutex; the keys of limiters are different over all limiters, limits and kinds; and so
are the keys of semaphores over all names and kinds. -/
theorem keys_never_collide (ns : String) (clusterHashTags : Bool) :
    (Function.Injective (DispatchKey.key ⟨ns, clusterHashTags⟩) ∧
        ∀ queue, DispatchConfig.leaderOwners ⟨ns, clusterHashTags⟩ queue =
          (DispatchConfig.leaderMutex ⟨ns, clusterHashTags⟩ queue).ownersKey) ∧
      Function.Injective (LimiterKey.key ns clusterHashTags) ∧
      Function.Injective fun k : String × SemaphoreKey =>
        (SemaphoreConfig.mk ns k.1 clusterHashTags).key k.2 := by
  refine ⟨⟨dispatchKey_injective _, fun queue => rfl⟩, ?_, ?_⟩
  · exact limiterKey_injective ns clusterHashTags
  · exact semaphoreKey_injective ns clusterHashTags

/-- A queue name with separators and braces, in a cluster. -/
example : DispatchConfig.leaderOwners ⟨"dispatch", true⟩ "a:{b}" =
    "{dispatch:a:{b}:leader}:owners" := by decide

end RedisSemaphore.KeyLayout
