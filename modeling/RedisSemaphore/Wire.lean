import RedisSemaphore.Redis.Script

/-!
# Arguments and replies

What the client and the scripts have in common: `KEYS` and `ARGV`, the time argument, and the
functions of `lua_scripts.py` that read a reply. A client may be set up to decode replies or not;
text is text here, as the readers treat `bytes` and `str` alike.
-/

namespace RedisSemaphore.Wire

open Redis Redis.Script

/-! ## Calls -/

/-- `EVALSHA sha numkeys args`, with the body of the script in the place of its digest. -/
structure Invocation where
  numkeys : ℕ
  args : List String

/-- `KEYS`. -/
def Invocation.keys (i : Invocation) : List String := i.args.take i.numkeys

/-- `ARGV`. -/
def Invocation.argv (i : Invocation) : List String := i.args.drop i.numkeys

/-- `KEYS[i]` and `ARGV[i]`; what is missing is `nil`. -/
def index (table : List String) (i : ℕ) : Option String := table[i - 1]?

/-- `_now_ms_arg`: the client's time, or `''` for the server's. -/
def nowMsArg : Option ℤ → String
  | none => ""
  | some now => toString now

/-! ## The server's time -/

/-- The reply of `TIME`: seconds, and the microseconds of this second. -/
def timeReply (usec : ℕ) : List String := [toString (usec / 1000000), toString (usec % 1000000)]

/-- The server's time in milliseconds. -/
def millis (usec : ℕ) : ℤ := (usec / 1000 : ℕ)

theorem millis_nonneg (usec : ℕ) : 0 ≤ millis usec := Int.natCast_nonneg _

theorem millis_mono {usec usec' : ℕ} (h : usec ≤ usec') : millis usec ≤ millis usec' :=
  Int.ofNat_le.mpr (Nat.div_le_div_right h)

/-- A moment or a duration within `2 ^ 51` milliseconds, which is 71 thousand years. Sums of a few
of them are still integers that a double holds, and that a command reads. -/
def Moderate (ms : ℤ) : Prop := 0 ≤ ms ∧ ms ≤ 2 ^ 51

/-- `_lua_resolve_now`. -/
def luaResolveNow (usec : ℕ) (argv : List String) (i : ℕ) : Script ℤ :=
  match (index argv i).bind toNumber with
  | some nowMs => return nowMs
  | none => do
    let t := timeReply usec
    let sec ← need ((index t 1).bind toNumber)
    let micros ← need ((index t 2).bind toNumber)
    return sec * 1000 + micros / 1000

/-- Seconds and microseconds make the milliseconds. -/
theorem millis_eq (usec : ℕ) :
    ((usec / 1000000 : ℕ) : ℤ) * 1000 + ((usec % 1000000 : ℕ) : ℤ) / 1000 = millis usec := by
  rw [millis]
  omega

theorem runs_luaResolveNow {usec i : ℕ} {argv : List String} {arg : Option ℤ}
    (h : index argv i = some (nowMsArg arg)) (db : Database) :
    Runs (luaResolveNow usec argv i) db (arg.getD (millis usec)) db := by
  rw [luaResolveNow, h]
  cases arg with
  | none =>
    have hsec : (index (timeReply usec) 1).bind toNumber = some ((usec / 1000000 : ℕ) : ℤ) :=
      toNumber_toString_nat _
    have hmicros : (index (timeReply usec) 2).bind toNumber = some ((usec % 1000000 : ℕ) : ℤ) :=
      toNumber_toString_nat _
    simp only [nowMsArg, Option.bind_some, toNumber_empty, Option.getD_none, hsec, hmicros]
    rw [← millis_eq]
    exact (Runs.need _ _).bind ((Runs.need _ _).bind (.pure _ _))
  | some now =>
    simp only [nowMsArg, Option.bind_some, toNumber_toString]
    exact .pure _ _

/-! ## Reading replies -/

/-- The exceptions of the readers. -/
inductive ReplyError
  | valueError
  | typeError
  deriving DecidableEq, Repr

/-- Python's `int` of a text. -/
def int (text : String) : Except ReplyError ℤ :=
  match toNumber text with
  | some n => .ok n
  | none => .error .valueError

/-- `_to_int`. -/
def toInt : Resp → Except ReplyError ℤ
  | .bulk text => if text = "" then .ok 0 else int text
  | .int n => .ok n
  | .nil | .array _ => .error .typeError

/-- `_to_optional_int`. -/
def toOptionalInt : Resp → Except ReplyError (Option ℤ)
  | .nil => .ok none
  | .bulk text => if text = "" then .ok none else some <$> int text
  | .int n => .ok (some n)
  | .array _ => .error .typeError

/-- `_to_bool`. -/
def toBool : Resp → Except ReplyError Bool
  | .bulk text => if text = "" then .ok false else (decide <| · ≠ 0) <$> int text
  | .int n => .ok (decide (n ≠ 0))
  | .nil => .ok false
  | .array items => .ok !items.isEmpty

/-- `_parse_int_list`. -/
def parseIntList (result : Resp) (n : ℕ) : Except ReplyError (List ℤ) :=
  match result with
  | .array items => if items.length = n then items.mapM toInt else .error .valueError
  | _ => .error .valueError

theorem mapM_toInt (ns : List ℤ) : (ns.map Resp.int).mapM toInt = .ok ns := by
  induction ns with
  | nil => rfl
  | cons n ns ih =>
    rw [List.map_cons, List.mapM_cons, ih]
    rfl

/-- A list of integers comes back. -/
theorem parseIntList_ints (ns : List ℤ) :
    parseIntList (.array (ns.map .int)) ns.length = .ok ns := by
  rw [parseIntList, if_pos (by simp), mapM_toInt]

end RedisSemaphore.Wire
