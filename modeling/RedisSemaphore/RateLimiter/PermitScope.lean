import Mathlib.Algebra.Order.Archimedean.Basic
import Mathlib.Algebra.Order.Field.Rat
import Mathlib.Data.Rat.Floor
import Mathlib.Data.String.Basic
import RedisSemaphore.KeyLayout

/-!
# Which permits a limiter adjusts

`adjust` names the limiter by `_scope`, the identity stamped into a permit, and the keys by
`_key_prefix`. This module models the configuration with everything `_resolve_costs`,
`_build_permit`, `_resolve_adjustment` and `_adjust_args` read of it, and compares the two names.
-/

namespace RedisSemaphore.PermitScope

open KeyLayout (joined LimitName)

/-! ## Dictionaries -/

/-- A `dict`, in insertion order. -/
abbrev Dict (α : Type) := List (String × α)

namespace Dict

variable {α β : Type}

/-- The keys of a `dict`, in their order. -/
def names (d : Dict α) : List String := d.map Prod.fst

/-- `d.update(new)`, and `{**d, **new}`. -/
def update (d new : Dict α) : Dict α :=
  d.map (fun e => (e.1, (new.lookup e.1).getD e.2)) ++ new.filter fun e => e.1 ∉ d.names

/-- An update with known names leaves the names as they are. -/
theorem names_update {d new : Dict α} (h : ∀ n ∈ new.names, n ∈ d.names) :
    (d.update new).names = d.names := by
  have hnothing : new.filter (fun e => e.1 ∉ d.names) = [] := by
    rw [List.filter_eq_nil_iff]
    intro e he
    simpa using h e.1 (List.mem_map_of_mem he)
  rw [update, hnothing, List.append_nil, names, names, List.map_map]
  rfl

/-- A dictionary built entry by entry has the names its entries are built with. -/
theorem names_mapM {ι ε : Type} {name : ι → String} {f : ι → Except ε (String × β)}
    (hf : ∀ i e, f i = .ok e → e.1 = name i) {l : List ι} {d : Dict β}
    (h : l.mapM f = .ok d) : d.names = l.map name := by
  induction l generalizing d with
  | nil =>
    obtain rfl := Except.ok.inj h
    rfl
  | cons i l ih =>
    rw [List.mapM_cons] at h
    cases hhead : f i with
    | error error => simp [hhead, bind, Except.bind] at h
    | ok e =>
      cases htail : l.mapM f with
      | error error => simp [hhead, htail, bind, Except.bind] at h
      | ok rest =>
        simp only [hhead, htail, bind, Except.bind, pure, Except.pure, Except.ok.injEq] at h
        subst h
        have hrest := ih htail
        simp only [names, List.map_cons, hf i e hhead] at hrest ⊢
        rw [hrest]

end Dict

/-! ## Configurations -/

/-- A `RateLimit` that `__post_init__` accepts. -/
structure RateLimit where
  name : LimitName
  limit : ℤ
  window : ℚ
  one_le_limit : 1 ≤ limit
  le_window : 1 / 1000 ≤ window

/-- An accepted `RateLimiterConfig`, as far as permits go. -/
structure RateLimiterConfig extends KeyLayout.RateLimiterConfig where
  limits : List RateLimit
  name_ne_empty : name ≠ ""
  limits_ne_nil : limits ≠ []
  names_nodup : (limits.map (·.name.name)).Nodup

/-- Python's `round`: half to even. -/
def round (q : ℚ) : ℤ :=
  let rest := q - ⌊q⌋
  if rest < 1 / 2 then ⌊q⌋
  else if 1 / 2 < rest then ⌊q⌋ + 1
  else if Even ⌊q⌋ then ⌊q⌋ else ⌊q⌋ + 1

/-- `_window_ms`. -/
def windowMs (limit : RateLimit) : ℤ := max 1 (round (limit.window * 1000))

/-! ## Costs and permits -/

/-- A value in the place of a cost: an `int`, or something `_check_int_cost` refuses. -/
inductive Value
  | int (n : ℤ)
  | other
  deriving DecidableEq, Repr

/-- A `Cost`: one value for every limit (an `int` or a `bool`), or a value for each. -/
inductive Cost
  | value (v : Value)
  | mapping (costs : Dict Value)

/-- The `ValueError`s, with what their texts name. -/
inductive ValueError
  | unknownLimits (unknown : List String) (limiter : String)
  | notInt (name : String)
  | negative (name : String)
  | exceedsLimit (value : ℤ) (name : String) (limit : ℤ)
  | notAdmitted
  | foreign (limiter : Option String) (scope : String)
  | limitsChanged (limiter : String)
  deriving DecidableEq, Repr

/-- `RatePermit`. Its `limiter` is the scope that `adjust()` compares. -/
structure RatePermit where
  success : Bool
  identifier : Option String
  costs : Dict ℤ
  acquiredAt : Option ℚ
  retryAfter : Option ℚ
  used : Dict ℤ
  limiter : Option String
  deriving DecidableEq, Repr

namespace RateLimiterConfig

variable (cfg : RateLimiterConfig)

/-- The names of the limits. -/
def names : List String := cfg.limits.map (·.name.name)

/-- `_scope`. -/
def scope : String := joined cfg.ns cfg.name

/-- `_keys`. -/
def keys (limits : List RateLimit) : List String :=
  limits.flatMap fun limit => [cfg.logKey limit.name, cfg.totalKey limit.name]

/-! ### `_resolve_costs` -/

/-- `_check_names`. -/
def checkNames (costs : Dict Value) : Except ValueError Unit :=
  let unknown := costs.names.filter (· ∉ cfg.names)
  if unknown = [] then .ok ()
  else .error (.unknownLimits (unknown.mergeSort fun a b => decide (a ≤ b)) cfg.name)

/-- The checks of one cost of an acquire. -/
def checkCost (limit : RateLimit) : Value → Except ValueError (String × ℤ)
  | .other => .error (.notInt limit.name.name)
  | .int n =>
    if n < 0 then .error (.negative limit.name.name)
    else if limit.limit < n then .error (.exceedsLimit n limit.name.name limit.limit)
    else .ok (limit.name.name, n)

/-- `_resolve_costs`. -/
def resolveCosts : Cost → Except ValueError (Dict ℤ)
  | .value v => cfg.limits.mapM fun limit => checkCost limit v
  | .mapping costs => do
    cfg.checkNames costs
    cfg.limits.mapM fun limit =>
      checkCost limit ((costs.lookup limit.name.name).getD (.int 1))

/-! ### `_build_permit` -/

/-- `_build_permit`. -/
def buildPermit (costs : Dict ℤ) (identifier : String) (success : Bool)
    (retryAfterMs nowMs : ℤ) (used : List ℤ) : RatePermit :=
  let usedByName := cfg.names.zip used
  if success then
    ⟨true, some identifier, costs, some (nowMs / 1000), none, usedByName, some cfg.scope⟩
  else ⟨false, none, costs, none, some (retryAfterMs / 1000), usedByName, some cfg.scope⟩

/-! ### `_resolve_adjustment` -/

/-- The checks of one new cost. -/
def checkNewCost : String × Value → Except ValueError (String × ℤ)
  | (name, .other) => .error (.notInt name)
  | (name, .int n) => if n < 0 then .error (.negative name) else .ok (name, n)

/-- `_resolve_adjustment`. -/
def resolveAdjustment (permit : RatePermit) (cost : Cost) : Except ValueError (Dict ℤ) :=
  if permit.success = false ∨ permit.identifier = none ∨ permit.acquiredAt = none then
    .error .notAdmitted
  else if permit.limiter ≠ some cfg.scope then .error (.foreign permit.limiter cfg.scope)
  else if ¬((∀ n ∈ permit.costs.names, n ∈ cfg.names) ∧
      ∀ n ∈ cfg.names, n ∈ permit.costs.names) then
    .error (.limitsChanged cfg.name)
  else
    match cost with
    | .value v => Dict.names permit.costs |>.map (·, v) |>.mapM checkNewCost
    | .mapping costs => do
      cfg.checkNames costs
      (Dict.update (permit.costs.map fun e => (e.1, .int e.2)) costs).mapM checkNewCost

/-! ### `_adjust_args` -/

/-- `_adjust_args`: the limits whose cost changes, their keys and the changes. -/
def adjustArgs (permit : RatePermit) (newCosts : Dict ℤ) :
    List RateLimit × List String × List (ℤ × Option ℤ × Option ℤ) :=
  let limits := cfg.limits.filter fun limit =>
    newCosts.lookup limit.name.name ≠ permit.costs.lookup limit.name.name
  (limits, cfg.keys limits, limits.map fun limit =>
    (windowMs limit, permit.costs.lookup limit.name.name, newCosts.lookup limit.name.name))

end RateLimiterConfig

/-- `_apply_adjustment`. -/
def applyAdjustment (permit : RatePermit) (newCosts : Dict ℤ) (limits : List RateLimit)
    (used : List ℤ) : RatePermit :=
  { permit with
    costs := permit.costs.update newCosts
    used := permit.used.update ((limits.map (·.name.name)).zip used) }

/-! ## What the checks leave -/

namespace RateLimiterConfig

variable {cfg : RateLimiterConfig}

/-- A cost is checked under the name of its limit. -/
theorem checkCost_name {limit : RateLimit} {v : Value} {e : String × ℤ}
    (h : checkCost limit v = .ok e) : e.1 = limit.name.name := by
  cases v with
  | other => cases h
  | int n =>
    simp only [checkCost] at h
    split at h
    · cases h
    · split at h
      · cases h
      · obtain rfl := Except.ok.inj h
        rfl

/-- A new cost is checked under its own name. -/
theorem checkNewCost_name {e : String × Value} {cost : String × ℤ}
    (h : checkNewCost e = .ok cost) : cost.1 = e.1 := by
  obtain ⟨name, v⟩ := e
  cases v with
  | other => cases h
  | int n =>
    simp only [checkNewCost] at h
    split at h
    · cases h
    · obtain rfl := Except.ok.inj h
      rfl

/-- Names that pass are names of limits. -/
theorem names_of_checkNames {costs : Dict Value} (h : cfg.checkNames costs = .ok ()) :
    ∀ n ∈ costs.names, n ∈ cfg.names := by
  unfold checkNames at h
  dsimp only at h
  split at h
  case isTrue hunknown =>
    intro n hn
    by_contra hmissing
    have hmem : n ∈ costs.names.filter (· ∉ cfg.names) :=
      List.mem_filter.mpr ⟨hn, decide_eq_true hmissing⟩
    rw [hunknown] at hmem
    cases hmem
  case isFalse hunknown => cases h

/-- `_resolve_costs` charges the limits of the configuration, all of them. -/
theorem names_of_resolveCosts {cost : Cost} {costs : Dict ℤ}
    (h : cfg.resolveCosts cost = .ok costs) : costs.names = cfg.names := by
  cases cost with
  | value v => exact Dict.names_mapM (fun limit e he => checkCost_name he) h
  | mapping given =>
    unfold resolveCosts at h
    cases hnames : cfg.checkNames given with
    | error error => simp [hnames, bind, Except.bind] at h
    | ok u =>
      simp only [hnames, bind, Except.bind] at h
      exact Dict.names_mapM (fun limit e he => checkCost_name he) h

/-- What `_resolve_adjustment` has checked of a permit it accepts. -/
structure Accepts (cfg : RateLimiterConfig) (permit : RatePermit) (newCosts : Dict ℤ) : Prop where
  limiter : permit.limiter = some cfg.scope
  names : ∀ n, n ∈ permit.costs.names ↔ n ∈ cfg.names
  newNames : newCosts.names = permit.costs.names

/-- What `aadjust` goes on with, it has accepted. -/
theorem accepts_of_resolveAdjustment {permit : RatePermit} {cost : Cost} {newCosts : Dict ℤ}
    (h : cfg.resolveAdjustment permit cost = .ok newCosts) : cfg.Accepts permit newCosts := by
  unfold resolveAdjustment at h
  split at h
  · cases h
  split at h
  · cases h
  case isFalse hscope =>
  split at h
  · cases h
  case isFalse hlimits =>
  rw [not_not] at hscope hlimits
  refine ⟨hscope, fun n => ⟨hlimits.1 n, hlimits.2 n⟩, ?_⟩
  cases cost with
  | value v =>
    have hnames := Dict.names_mapM (fun e c hc => checkNewCost_name hc) h
    rwa [List.map_map, Function.comp_def, List.map_id'] at hnames
  | mapping given =>
    cases hgiven : cfg.checkNames given with
    | error error => simp [hgiven, bind, Except.bind] at h
    | ok u =>
      simp only [hgiven, bind, Except.bind] at h
      have hnames := Dict.names_mapM (fun e c hc => checkNewCost_name hc) h
      have hkept : Dict.names (permit.costs.map fun e => (e.1, Value.int e.2)) =
          permit.costs.names := by
        rw [Dict.names, List.map_map]
        rfl
      rw [hnames, ← hkept]
      refine Dict.names_update fun n hn => ?_
      rw [hkept]
      exact hlimits.2 n (names_of_checkNames hgiven n hn)

end RateLimiterConfig

/-! ## Permits a limiter has admitted -/

/-- A permit that `acquire` of the limiter returned with success, as it is after any adjustments,
by whichever limiter. -/
inductive Admitted (A : RateLimiterConfig) : RatePermit → Prop
  | acquire {cost : Cost} {costs : Dict ℤ} (hcosts : A.resolveCosts cost = .ok costs)
      (identifier : String) (retryAfterMs nowMs : ℤ) (used : List ℤ) :
      Admitted A (A.buildPermit costs identifier true retryAfterMs nowMs used)
  | adjust {other : RateLimiterConfig} {permit : RatePermit} {cost : Cost} {newCosts : Dict ℤ}
      (h : Admitted A permit) (hok : other.resolveAdjustment permit cost = .ok newCosts)
      (used : List ℤ) :
      Admitted A (applyAdjustment permit newCosts (other.adjustArgs permit newCosts).1 used)

namespace Admitted

variable {A : RateLimiterConfig} {permit : RatePermit}

/-- The permit carries the scope of the limiter that admitted it. -/
theorem limiter_eq (h : Admitted A permit) : permit.limiter = some A.scope := by
  induction h with
  | acquire hcosts identifier retryAfterMs nowMs used => rfl
  | adjust h hok used ih => exact ih

/-- The permit's costs are for the limits that admitted it, through all adjustments. -/
theorem names_eq (h : Admitted A permit) : permit.costs.names = A.names := by
  induction h with
  | acquire hcosts identifier retryAfterMs nowMs used =>
    exact RateLimiterConfig.names_of_resolveCosts hcosts
  | adjust h hok used ih =>
    have haccepts := RateLimiterConfig.accepts_of_resolveAdjustment hok
    refine (Dict.names_update fun n hn => ?_).trans ih
    rw [← haccepts.newNames]
    exact hn

end Admitted

/-! ## Scope and prefix -/

namespace RateLimiterConfig

variable {A B : RateLimiterConfig}

/-- The prefix of the keys is the scope, in braces with hash tags. -/
theorem keyPrefix_eq (cfg : RateLimiterConfig) : cfg.keyPrefix =
    if cfg.clusterHashTags then "\x7b" ++ cfg.scope ++ "\x7d" else cfg.scope := rfl

/-- Of limiters with one scope, those with the same setting of `cluster_hash_tags` have one
prefix. -/
theorem keyPrefix_eq_iff (hscope : A.scope = B.scope) :
    B.keyPrefix = A.keyPrefix ↔ A.clusterHashTags = B.clusterHashTags := by
  have hlonger : ∀ scope : String, "\x7b" ++ scope ++ "\x7d" ≠ scope := by
    intro scope heq
    have hlength := congrArg String.length heq
    rw [String.length_append, String.length_append] at hlength
    have hbrace : "\x7b".length = 1 := rfl
    omega
  rw [keyPrefix_eq, keyPrefix_eq, hscope]
  cases A.clusterHashTags with
  | false =>
    cases B.clusterHashTags with
    | false => simp
    | true => simpa using hlonger B.scope
  | true =>
    cases B.clusterHashTags with
    | false => simpa using (hlonger B.scope).symm
    | true => simp

/-- The log keys of one limit are equal when the prefixes are. -/
theorem logKey_eq_iff (limit : LimitName) :
    B.logKey limit = A.logKey limit ↔ B.keyPrefix = A.keyPrefix := by
  constructor
  · intro h
    have hname := (KeyLayout.joined_inj (by decide) (by decide) h).1
    exact (KeyLayout.joined_inj limit.colon_notMem limit.colon_notMem hname).1
  · intro h
    exact congrArg (fun start => joined (joined start limit.name) "log") h

/-- Equal prefixes make equal totals. -/
theorem totalKey_eq (h : B.keyPrefix = A.keyPrefix) (limit : LimitName) :
    B.totalKey limit = A.totalKey limit :=
  congrArg (fun start => joined (joined start limit.name) "total") h

/-- Every key that `adjust` writes is the log or the total of a limit of the permit. -/
theorem mem_adjustArgs_keys {permit : RatePermit} {newCosts : Dict ℤ}
    (h : B.Accepts permit newCosts) {key : String}
    (hkey : key ∈ (B.adjustArgs permit newCosts).2.1) :
    ∃ limit : LimitName, limit.name ∈ permit.costs.names ∧
      (key = B.logKey limit ∨ key = B.totalKey limit) := by
  obtain ⟨limit, hlimit, hkey⟩ := List.mem_flatMap.mp hkey
  refine ⟨limit.name, ?_, by simpa using hkey⟩
  rw [h.names]
  exact List.mem_map_of_mem (List.mem_filter.mp hlimit).1

end RateLimiterConfig

/-- **Which limiters adjust the windows a permit was charged to.** `_scope` leaves out
`cluster_hash_tags`. When limiter `B` accepts a permit admitted by `A`, the log and total keys of
the permit's limits are those `A` charged exactly if the two agree on it. -/
theorem adjust_keys_iff {A B : RateLimiterConfig} {permit : RatePermit} {cost : Cost}
    {newCosts : Dict ℤ} (hadmitted : Admitted A permit)
    (hok : B.resolveAdjustment permit cost = .ok newCosts) :
    (∀ limit : LimitName, limit.name ∈ permit.costs.names →
        B.logKey limit = A.logKey limit ∧ B.totalKey limit = A.totalKey limit) ↔
      A.clusterHashTags = B.clusterHashTags := by
  have haccepts := RateLimiterConfig.accepts_of_resolveAdjustment hok
  have hscope : A.scope = B.scope :=
    Option.some.inj (hadmitted.limiter_eq.symm.trans haccepts.limiter)
  rw [← RateLimiterConfig.keyPrefix_eq_iff hscope]
  constructor
  · intro hkeys
    -- A limiter has at least one limit.
    obtain ⟨limit, hlimit⟩ := List.exists_mem_of_ne_nil _ A.limits_ne_nil
    have hname : limit.name.name ∈ permit.costs.names := by
      rw [hadmitted.names_eq]
      exact List.mem_map_of_mem hlimit
    exact (RateLimiterConfig.logKey_eq_iff limit.name).mp (hkeys limit.name hname).1
  · intro hprefix limit hname
    exact ⟨(RateLimiterConfig.logKey_eq_iff limit).mpr hprefix,
      RateLimiterConfig.totalKey_eq hprefix limit⟩

/-- The limit of the permit below. -/
def requests : LimitName := ⟨"requests", by decide, by decide⟩

/-- A limiter with one limit. -/
def requestLimiter (ns name : String) (hname : name ≠ "") (clusterHashTags : Bool) :
    RateLimiterConfig where
  ns := ns
  name := name
  clusterHashTags := clusterHashTags
  limits := [⟨requests, 10, 60, by norm_num, by norm_num⟩]
  name_ne_empty := hname
  limits_ne_nil := by simp
  names_nodup := by simp

/-- The permit of a request of cost 3, admitted at time 1000. -/
def requestPermit : RatePermit :=
  (requestLimiter "rate" "team:cert" (by decide) false).buildPermit [("requests", 3)] "id" true
    0 1000 [3]

/-- The permit below has been admitted. -/
theorem requestPermit_admitted :
    Admitted (requestLimiter "rate" "team:cert" (by decide) false) requestPermit :=
  @Admitted.acquire _ (.value (.int 3)) _ rfl "id" 0 1000 [3]

/-- One scope, split into namespace and name at another colon. -/
theorem adjust_keys_iff_split :
    (requestLimiter "rate:team" "cert" (by decide) false).logKey requests =
        (requestLimiter "rate" "team:cert" (by decide) false).logKey requests ∧
      (requestLimiter "rate:team" "cert" (by decide) false).totalKey requests =
        (requestLimiter "rate" "team:cert" (by decide) false).totalKey requests :=
  (@adjust_keys_iff _ _ _ (.value (.int 0)) [("requests", 0)] requestPermit_admitted rfl).mpr rfl
    requests (by decide)

/-- The same limiter with hash tags accepts the permit, and writes other keys. -/
theorem adjust_writes_other_keys :
    ∃ (A B : RateLimiterConfig) (permit : RatePermit) (cost : Cost) (newCosts : Dict ℤ)
        (limit : LimitName),
      Admitted A permit ∧ B.resolveAdjustment permit cost = .ok newCosts ∧
        limit.name ∈ permit.costs.names ∧
        (B.adjustArgs permit newCosts).2.1 = [B.logKey limit, B.totalKey limit] ∧
        B.logKey limit ≠ A.logKey limit ∧ B.totalKey limit ≠ A.totalKey limit :=
  ⟨requestLimiter "rate" "team:cert" (by decide) false,
    requestLimiter "rate" "team:cert" (by decide) true, requestPermit, .value (.int 0),
    [("requests", 0)], requests, requestPermit_admitted, rfl, by decide, by decide, by decide,
    by decide⟩

end RedisSemaphore.PermitScope
