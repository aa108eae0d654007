import Mathlib.Data.Set.Insert
import RedisSemaphore.KeyLayout
import RedisSemaphore.RateLimiter.PermitScope
import RedisSemaphore.Redis.HashTag

/-!
# Keys in a Redis Cluster

With `cluster_hash_tags` the namespace and the name of a key stand between braces, so that all keys
of one semaphore, limiter or queue share a slot. Names are free-form and may hold braces themselves;
Redis looks for the first pair.
-/

namespace RedisSemaphore.ClusterKeys

open KeyLayout (joined SemaphoreConfig DispatchConfig JobId)
open PermitScope (RateLimiterConfig)

/-- Keys in one slot. Braces are single bytes in UTF-8, so characters do for bytes. -/
def CoLocated (keys : Set String) : Prop :=
  Redis.HashTag.CoLocated '\x7b' '\x7d' (Set.image String.toList keys)

/-! ## The keys of one entity -/

/-- The keys of a semaphore that its scripts name together. -/
def semaphoreKeys (config : SemaphoreConfig) : Set String :=
  {config.ownersKey, config.fencingKey}

/-- The keys of a limiter, two for every limit. -/
def limiterKeys (config : RateLimiterConfig) : Set String :=
  {key | key ∈ config.keys config.limits}

/-- The stream of a queue, its submit markers and its replies. -/
def queueKeys (config : DispatchConfig) (queue : String) : Set String :=
  insert (config.stream queue)
    (Set.range (config.submitMarker queue) ∪ Set.range (config.reply queue))

/-! ## Behind the prefix -/

/-- A key that starts with the tagged prefix of the name. -/
def Tagged (ns name key : String) : Prop :=
  ∃ rest : String, key = KeyLayout.keyPrefix ns true name ++ rest

/-- A further field behind a tagged start. -/
theorem Tagged.joined {ns name start : String} (h : Tagged ns name start) (field : String) :
    Tagged ns name (joined start field) := by
  obtain ⟨rest, rfl⟩ := h
  refine ⟨rest ++ ":" ++ field, ?_⟩
  rw [KeyLayout.joined, String.append_assoc, String.append_assoc, String.append_assoc]

theorem tagged_keyPrefix (ns name : String) : Tagged ns name (KeyLayout.keyPrefix ns true name) :=
  ⟨"", (String.append_empty).symm⟩

/-- The tag is the namespace, a colon and the name. -/
theorem toList_of_tagged {ns name key : String} (h : Tagged ns name key) :
    ∃ rest, key.toList = '\x7b' :: ((ns.toList ++ ':' :: name.toList) ++ '\x7d' :: rest) := by
  obtain ⟨rest, rfl⟩ := h
  refine ⟨rest.toList, ?_⟩
  simp [KeyLayout.keyPrefix, KeyLayout.joined, String.toList_append]

/-- Several keys behind one prefix are in one slot, unless the namespace closes the tag. -/
theorem coLocated_iff {ns name : String} {keys : Set String}
    (hkeys : ∀ key ∈ keys, Tagged ns name key) (hdistinct : keys.Nontrivial) :
    CoLocated keys ↔ ns.toList.head? ≠ some '\x7d' := by
  have htag : ns.toList ++ ':' :: name.toList ≠ [] := by simp
  have hstart : (ns.toList ++ ':' :: name.toList).head? = some '\x7d' ↔
      ns.toList.head? = some '\x7d' := by
    cases ns.toList with
    | nil => simp
    | cons c rest => simp
  rw [CoLocated, Redis.HashTag.coLocated_iff htag, ne_eq, hstart]
  · rintro key ⟨key, hkey, rfl⟩
    exact toList_of_tagged (hkeys key hkey)
  · exact hdistinct.image fun _ _ h => String.toList_injective h

/-! ## Each entity -/

theorem semaphore_coLocated_iff (ns name : String) :
    CoLocated (semaphoreKeys ⟨ns, name, true⟩) ↔ ns.toList.head? ≠ some '\x7d' := by
  refine @coLocated_iff ns name _ ?_ ?_
  · rintro key (rfl | rfl)
    · exact (tagged_keyPrefix ns name).joined "owners"
    · exact (tagged_keyPrefix ns name).joined "fencing"
  · refine Set.nontrivial_pair fun h => ?_
    exact absurd (KeyLayout.joined_inj (by decide) (by decide) h).2 (by decide)

theorem limiter_coLocated_iff (config : RateLimiterConfig) (htags : config.clusterHashTags = true) :
    CoLocated (limiterKeys config) ↔ config.ns.toList.head? ≠ some '\x7d' := by
  refine @coLocated_iff config.ns config.name _ ?_ ?_
  · intro key hkey
    have htagged : Tagged config.ns config.name config.keyPrefix := by
      rw [KeyLayout.RateLimiterConfig.keyPrefix, htags]
      exact tagged_keyPrefix _ _
    obtain ⟨limit, -, hkey⟩ := List.mem_flatMap.mp hkey
    rcases List.mem_pair.mp hkey with rfl | rfl
    · exact (htagged.joined limit.name.name).joined "log"
    · exact (htagged.joined limit.name.name).joined "total"
  · obtain ⟨limit, hlimit⟩ := List.exists_mem_of_ne_nil _ config.limits_ne_nil
    have hmem : ∀ key ∈ [config.logKey limit.name, config.totalKey limit.name],
        key ∈ limiterKeys config := fun key hkey => List.mem_flatMap.mpr ⟨limit, hlimit, hkey⟩
    refine ⟨config.logKey limit.name, hmem _ (by simp), config.totalKey limit.name,
      hmem _ (by simp), fun h => ?_⟩
    exact absurd (KeyLayout.joined_inj (by decide) (by decide) h).2 (by decide)

/-- The job id of all zeros. -/
def zeroJob : JobId where
  hex := String.ofList (List.replicate 32 '0')
  length_eq := by rw [String.length_ofList, List.length_replicate]
  isHexDigit c hc := by
    rw [String.toList_ofList] at hc
    obtain rfl := List.eq_of_mem_replicate hc
    decide

theorem queue_coLocated_iff (ns queue : String) :
    CoLocated (queueKeys ⟨ns, true⟩ queue) ↔ ns.toList.head? ≠ some '\x7d' := by
  refine @coLocated_iff ns queue _ ?_ ?_
  · rintro key (rfl | ⟨job, rfl⟩ | ⟨job, rfl⟩)
    · exact (tagged_keyPrefix ns queue).joined "stream"
    · exact ((tagged_keyPrefix ns queue).joined "submit").joined job.hex
    · exact ((tagged_keyPrefix ns queue).joined "reply").joined job.hex
  · refine ⟨_, Set.mem_insert _ _, _, Or.inr (Or.inl ⟨zeroJob, rfl⟩), fun h => ?_⟩
    exact zeroJob.ne_stream
      (KeyLayout.joined_inj (by decide) zeroJob.colon_notMem h).2.symm

/-- **When hash tags co-locate.** Whatever the names hold, and whatever stands further inside the
namespace: the keys of a semaphore, of a limiter and of a queue share a slot exactly if the
namespace does not start with the closing brace. -/
theorem hash_tags_coLocate_iff (ns : String) :
    (∀ name, CoLocated (semaphoreKeys ⟨ns, name, true⟩) ↔ ns.toList.head? ≠ some '\x7d') ∧
    (∀ config : RateLimiterConfig, config.ns = ns → config.clusterHashTags = true →
      (CoLocated (limiterKeys config) ↔ ns.toList.head? ≠ some '\x7d')) ∧
    ∀ queue, CoLocated (queueKeys ⟨ns, true⟩ queue) ↔ ns.toList.head? ≠ some '\x7d' := by
  refine ⟨semaphore_coLocated_iff ns, ?_, queue_coLocated_iff ns⟩
  rintro config rfl htags
  exact limiter_coLocated_iff config htags

/-- A limiter with braces in both names. -/
theorem hash_tags_coLocate_braces :
    CoLocated (limiterKeys (PermitScope.requestLimiter "\x7ba\x7d" "\x7d\x7b" (by decide) true)) :=
  ((hash_tags_coLocate_iff _).2.1 _ rfl rfl).mpr (by decide)

/-- A namespace that is one closing brace: the owners and the fencing counter of a semaphore are
hashed as a whole. -/
theorem closing_namespace_splits :
    ¬ ∀ ns name, CoLocated (semaphoreKeys ⟨ns, name, true⟩) := by
  intro h
  have heq := h "\x7d" "x" _ ⟨_, Or.inl rfl, rfl⟩ _ ⟨_, Or.inr rfl, rfl⟩
  revert heq
  decide

end RedisSemaphore.ClusterKeys
