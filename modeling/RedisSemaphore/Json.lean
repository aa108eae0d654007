import RedisSemaphore.Redis.Text

/-!
# JSON

The text that Python's `json.dumps` prints with its defaults, and the reader `json.loads`. Strings
are printed in ASCII, with surrogate pairs beyond the basic plane; between tokens the reader skips
white space. `loads_dumps` says that a value comes back from its text.

A float is kept as the text of its number. `NaN`, the infinities and strings with lone surrogates
are not values here.
-/

namespace Json

/-! ## Numbers -/

/-- A character of a number. -/
def isNumberChar (c : Char) : Bool :=
  c.isDigit || c = '-' || c = '+' || c = '.' || c = 'e' || c = 'E'

/-- An integer: no sign but `-`, and no leading zero. -/
def readInt (token : List Char) : Option ℤ :=
  if token = ['-', '0'] then some 0
  else (Redis.toNumber (String.ofList token)).filter fun n => (toString n).toList = token

/-- An optional sign, and digits. -/
def isExponent : List Char → Bool
  | '+' :: ds => !ds.isEmpty && ds.all Char.isDigit
  | '-' :: ds => !ds.isEmpty && ds.all Char.isDigit
  | ds => !ds.isEmpty && ds.all Char.isDigit

/-- A fraction or an exponent, or both. -/
def isTail : List Char → Bool
  | '.' :: cs =>
    !(cs.takeWhile Char.isDigit).isEmpty &&
      match cs.dropWhile Char.isDigit with
      | [] => true
      | e :: ds => (e = 'e' || e = 'E') && isExponent ds
  | e :: ds => (e = 'e' || e = 'E') && isExponent ds
  | [] => false

/-- The text of a float. -/
def isFloat (token : List Char) : Bool :=
  let whole := token.takeWhile fun c => c.isDigit || c = '-'
  (readInt whole).isSome && isTail (token.drop whole.length) && token.all isNumberChar &&
    (readInt token).isNone

/-- A float by its text. -/
structure Float where
  text : List Char
  isFloat : Json.isFloat text = true
  deriving DecidableEq

end Json

/-- A JSON value. Of equal keys in an object the last one counts. -/
inductive Json
  | null
  | bool (b : Bool)
  | int (n : ℤ)
  | float (x : Json.Float)
  | str (s : String)
  | list (items : List Json)
  | dict (items : List (String × Json))

namespace Json

/-! ## Strings -/

/-- `\uXXXX`. -/
def unicode (n : ℕ) : List Char :=
  ['\\', 'u', Nat.digitChar (n / 4096 % 16), Nat.digitChar (n / 256 % 16),
    Nat.digitChar (n / 16 % 16), Nat.digitChar (n % 16)]

/-- A character of a string, in ASCII. -/
def escape (c : Char) : List Char :=
  if c = '"' then ['\\', '"']
  else if c = '\\' then ['\\', '\\']
  else if c = '\n' then ['\\', 'n']
  else if c = '\r' then ['\\', 'r']
  else if c = '\t' then ['\\', 't']
  else if c = '\x08' then ['\\', 'b']
  else if c = '\x0c' then ['\\', 'f']
  else if 0x20 ≤ c.toNat ∧ c.toNat ≤ 0x7e then [c]
  else if c.toNat < 0x10000 then unicode c.toNat
  else
    unicode (0xd800 + (c.toNat - 0x10000) / 0x400) ++
      unicode (0xdc00 + (c.toNat - 0x10000) % 0x400)

/-- The characters between the quotes, and the closing quote. -/
def quoted : List Char → List Char
  | [] => ['"']
  | c :: cs => escape c ++ quoted cs

/-- The value of one hexadecimal digit, in either case. -/
def hexValue (c : Char) : Option ℕ :=
  if c.isDigit then some (c.toNat - '0'.toNat)
  else if 'a' ≤ c ∧ c ≤ 'f' then some (c.toNat - 'a'.toNat + 10)
  else if 'A' ≤ c ∧ c ≤ 'F' then some (c.toNat - 'A'.toNat + 10)
  else none

/-- Four hexadecimal digits. -/
def readHex (a b c d : Char) : Option ℕ := do
  let a ← hexValue a
  let b ← hexValue b
  let c ← hexValue c
  let d ← hexValue d
  return a * 4096 + b * 256 + c * 16 + d

/-- The character behind a backslash. -/
def unescape : Char → Option Char
  | '"' => some '"'
  | '\\' => some '\\'
  | '/' => some '/'
  | 'n' => some '\n'
  | 'r' => some '\r'
  | 't' => some '\t'
  | 'b' => some '\x08'
  | 'f' => some '\x0c'
  | _ => none

/-- The rest of a string behind its opening quote, and what follows the closing one. -/
def scan : List Char → Option (List Char × List Char)
  | [] => none
  | '"' :: rest => some ([], rest)
  | '\\' :: 'u' :: a :: b :: c :: d :: cs =>
    match readHex a b c d with
    | none => none
    | some high =>
      if 0xd800 ≤ high ∧ high < 0xdc00 then
        match cs with
        | '\\' :: 'u' :: a' :: b' :: c' :: d' :: cs' =>
          match readHex a' b' c' d' with
          | none => none
          | some low =>
            if 0xdc00 ≤ low ∧ low < 0xe000 then
              (scan cs').map fun p =>
                (Char.ofNat (0x10000 + (high - 0xd800) * 0x400 + (low - 0xdc00)) :: p.1, p.2)
            else none
        | _ => none
      else if 0xdc00 ≤ high ∧ high < 0xe000 then none
      else (scan cs).map fun p => (Char.ofNat high :: p.1, p.2)
  | '\\' :: e :: cs =>
    match unescape e with
    | none => none
    | some c => (scan cs).map fun p => (c :: p.1, p.2)
  | c :: cs => if c.toNat < 0x20 then none else (scan cs).map fun p => (c :: p.1, p.2)

/-! ## `json.dumps` -/

mutual

/-- The text of a value. -/
def print : Json → List Char
  | .null => ['n', 'u', 'l', 'l']
  | .bool true => ['t', 'r', 'u', 'e']
  | .bool false => ['f', 'a', 'l', 's', 'e']
  | .int n => (toString n).toList
  | .float x => x.text
  | .str s => '"' :: quoted s.toList
  | .list [] => ['[', ']']
  | .list (j :: items) => '[' :: (print j ++ printItems items)
  | .dict [] => ['\x7b', '\x7d']
  | .dict ((key, j) :: items) =>
    '\x7b' :: '"' :: (quoted key.toList ++ ':' :: ' ' :: (print j ++ printMembers items))

/-- The items behind the first, and the closing bracket. -/
def printItems : List Json → List Char
  | [] => [']']
  | j :: items => ',' :: ' ' :: (print j ++ printItems items)

/-- The members behind the first, and the closing brace. -/
def printMembers : List (String × Json) → List Char
  | [] => ['\x7d']
  | (key, j) :: items =>
    ',' :: ' ' :: '"' :: (quoted key.toList ++ ':' :: ' ' :: (print j ++ printMembers items))

end

/-- The members, the first one among them. -/
def printMember (key : String) (j : Json) (items : List (String × Json)) : List Char :=
  '"' :: (quoted key.toList ++ ':' :: ' ' :: (print j ++ printMembers items))

/-- `json.dumps`. -/
def dumps (j : Json) : String := String.ofList (print j)

/-! ## `json.loads` -/

/-- White space between tokens. -/
def skip (cs : List Char) : List Char :=
  cs.dropWhile fun c => c = ' ' || c = '\t' || c = '\n' || c = '\r'

/-- A number, by its longest text. -/
def number (cs : List Char) : Option (Json × List Char) :=
  let token := cs.takeWhile isNumberChar
  let rest := cs.dropWhile isNumberChar
  match readInt token with
  | some n => some (.int n, rest)
  | none => if h : isFloat token then some (.float ⟨token, h⟩, rest) else none

mutual

/-- One value and what follows it; `fuel` bounds the length of the text. -/
def value : ℕ → List Char → Option (Json × List Char)
  | 0, _ => none
  | fuel + 1, cs =>
    match cs with
    | 'n' :: 'u' :: 'l' :: 'l' :: rest => some (.null, rest)
    | 't' :: 'r' :: 'u' :: 'e' :: rest => some (.bool true, rest)
    | 'f' :: 'a' :: 'l' :: 's' :: 'e' :: rest => some (.bool false, rest)
    | '"' :: rest => (scan rest).map fun p => (.str (String.ofList p.1), p.2)
    | '[' :: rest =>
      match skip rest with
      | ']' :: rest => some (.list [], rest)
      | rest => (items fuel rest).map fun p => (.list p.1, p.2)
    | '\x7b' :: rest =>
      match skip rest with
      | '\x7d' :: rest => some (.dict [], rest)
      | rest => (members fuel rest).map fun p => (.dict p.1, p.2)
    | cs => number cs

/-- The items up to the closing bracket. -/
def items : ℕ → List Char → Option (List Json × List Char)
  | 0, _ => none
  | fuel + 1, cs =>
    match value fuel cs with
    | none => none
    | some (j, rest) =>
      match skip rest with
      | ']' :: rest => some ([j], rest)
      | ',' :: rest => (items fuel (skip rest)).map fun p => (j :: p.1, p.2)
      | _ => none

/-- The members up to the closing brace. -/
def members : ℕ → List Char → Option (List (String × Json) × List Char)
  | 0, _ => none
  | fuel + 1, cs =>
    match cs with
    | '"' :: rest =>
      match scan rest with
      | none => none
      | some (key, rest) =>
        match skip rest with
        | ':' :: rest =>
          match value fuel (skip rest) with
          | none => none
          | some (j, rest) =>
            match skip rest with
            | '\x7d' :: rest => some ([(String.ofList key, j)], rest)
            | ',' :: rest =>
              (members fuel (skip rest)).map fun p => ((String.ofList key, j) :: p.1, p.2)
            | _ => none
        | _ => none
    | _ => none

end

/-- `json.loads`; `none` is a `ValueError`. -/
def loads (text : String) : Option Json :=
  match value (text.toList.length + 1) (skip text.toList) with
  | none => none
  | some (j, rest) => if skip rest = [] then some j else none

/-! ## Looking at a value -/

/-- A member of an object. -/
def get (key : String) (items : List (String × Json)) : Option Json := items.reverse.lookup key

/-- `bool` of a value. A number too small for a double counts as true. -/
def truthy : Json → Bool
  | .null => false
  | .bool b => b
  | .int n => n ≠ 0
  | .float x =>
    (x.text.takeWhile fun c => c ≠ 'e' && c ≠ 'E').any fun c => c.isDigit && c ≠ '0'
  | .str s => s ≠ ""
  | .list items => !items.isEmpty
  | .dict items => !items.isEmpty

/-! ## Reading what was printed -/

/-- Reading a digit that was printed. -/
theorem hexValue_digitChar {d : ℕ} (h : d < 16) : hexValue (Nat.digitChar d) = some d := by
  have hall : ∀ d : Fin 16, hexValue (Nat.digitChar d) = some d.val := by decide
  exact hall ⟨d, h⟩

/-- Reading the four digits of an escape. -/
theorem readHex_digits {n : ℕ} (h : n < 65536) :
    readHex (Nat.digitChar (n / 4096 % 16)) (Nat.digitChar (n / 256 % 16))
      (Nat.digitChar (n / 16 % 16)) (Nat.digitChar (n % 16)) = some n := by
  have hdigit (k : ℕ) : hexValue (Nat.digitChar (k % 16)) = some (k % 16) :=
    hexValue_digitChar (Nat.mod_lt k (by decide))
  simp only [readHex, hdigit, Option.bind_eq_bind, Option.bind_some, Option.pure_def,
    Option.some.injEq]
  omega

/-- A code point outside the surrogates, in one piece. -/
theorem scan_unicode {n : ℕ} (h : n < 65536) (hvalid : n < 0xd800 ∨ 0xe000 ≤ n)
    (rest : List Char) :
    scan (unicode n ++ rest) = (scan rest).map fun p => (Char.ofNat n :: p.1, p.2) := by
  simp only [unicode, List.cons_append, List.nil_append]
  rw [scan]
  simp only [readHex_digits h]
  rw [if_neg (by omega), if_neg (by omega)]

/-- A code point beyond the basic plane, as a pair. -/
theorem scan_surrogates {n : ℕ} (h : n < 0x110000) (hhigh : 0x10000 ≤ n) (rest : List Char) :
    scan (unicode (0xd800 + (n - 0x10000) / 0x400) ++
      (unicode (0xdc00 + (n - 0x10000) % 0x400) ++ rest)) =
      (scan rest).map fun p => (Char.ofNat n :: p.1, p.2) := by
  simp only [unicode, List.cons_append, List.nil_append]
  rw [scan]
  have hfirst : 0xd800 + (n - 0x10000) / 0x400 < 65536 := by omega
  have hsecond : 0xdc00 + (n - 0x10000) % 0x400 < 65536 := by omega
  simp only [readHex_digits hfirst, readHex_digits hsecond]
  rw [if_pos (by omega), if_pos (by omega)]
  have hn : 0x10000 + (0xd800 + (n - 0x10000) / 0x400 - 0xd800) * 0x400 +
      (0xdc00 + (n - 0x10000) % 0x400 - 0xdc00) = n := by omega
  rw [hn]

/-- Characters are not surrogates. -/
theorem toNat_valid (c : Char) : c.toNat < 0xd800 ∨ 0xe000 ≤ c.toNat ∧ c.toNat < 0x110000 := by
  have hvalid : c.toNat < 0xd800 ∨ 0xdfff < c.toNat ∧ c.toNat < 0x110000 := c.valid
  omega

/-- A character that stands for itself. -/
theorem scan_plain {c : Char} (hquote : c ≠ '"') (hslash : c ≠ '\\') (hprintable : 0x20 ≤ c.toNat)
    (cs : List Char) : scan (c :: cs) = (scan cs).map fun p => (c :: p.1, p.2) := by
  rw [scan, if_neg (not_lt.mpr hprintable)]
  · exact hquote
  · exact fun _ _ _ _ _ heq _ => hslash heq
  · exact fun _ _ heq _ => hslash heq

/-- The scanner reads one printed character back and goes on with the rest. The characters that
are escaped by name, those printed as `\u` and the plain ones are separate cases. -/
theorem scan_escape (c : Char) (rest : List Char) :
    scan (escape c ++ rest) = (scan rest).map fun p => (c :: p.1, p.2) := by
  have hvalid := toNat_valid c
  unfold escape
  split
  · subst_vars; rfl
  split
  · subst_vars; rfl
  split
  · subst_vars; rfl
  split
  · subst_vars; rfl
  split
  · subst_vars; rfl
  split
  · subst_vars; rfl
  split
  · subst_vars; rfl
  split
  · rename_i hquote hslash _ _ _ _ _ hprintable
    exact scan_plain hquote hslash hprintable.1 rest
  split
  · rename_i hsmall
    rw [scan_unicode hsmall (by omega), Char.ofNat_toNat]
  · rename_i hbig
    rw [List.append_assoc, scan_surrogates (by omega) (by omega), Char.ofNat_toNat]

/-- A printed string is read back up to its closing quote, whatever follows. -/
theorem scan_quoted (cs rest : List Char) : scan (quoted cs ++ rest) = some (cs, rest) := by
  induction cs with
  | nil => rfl
  | cons c cs ih =>
    rw [quoted, List.append_assoc, scan_escape, ih]
    rfl

/-! ### Numbers -/

/-- What follows a number. -/
def Stops (rest : List Char) : Prop := ∀ c ∈ rest.head?, isNumberChar c = false

/-- A number ends where something follows that cannot be in one. -/
theorem number_append {token rest : List Char} (h : token.all isNumberChar) (hrest : Stops rest) :
    number (token ++ rest) =
      match readInt token with
      | some n => some (.int n, rest)
      | none => if h : isFloat token then some (.float ⟨token, h⟩, rest) else none := by
  have hstop : rest.takeWhile isNumberChar = [] ∧ rest.dropWhile isNumberChar = rest := by
    cases rest with
    | nil => exact ⟨rfl, rfl⟩
    | cons c rest =>
      have hc := hrest c rfl
      simp [hc]
  have hall : ∀ c ∈ token, isNumberChar c = true := List.all_eq_true.mp h
  have htake : (token ++ rest).takeWhile isNumberChar = token := by
    rw [List.takeWhile_append_of_pos hall, hstop.1, List.append_nil]
  have hdrop : (token ++ rest).dropWhile isNumberChar = rest := by
    rw [List.dropWhile_append_of_pos hall, hstop.2]
  rw [number]
  simp only [htake, hdrop]

/-- The text of a negative integer. -/
theorem toList_negSucc (n : ℕ) :
    (toString (Int.negSucc n)).toList = '-' :: Nat.toDigits 10 (n + 1) := by
  show ("-" ++ (n + 1).repr).toList = _
  rw [String.toList_append, Nat.toList_repr]
  rfl

/-- Reading an integer that was printed. -/
theorem readInt_toString (n : ℤ) : readInt (toString n).toList = some n := by
  have hread : Redis.toNumber (toString n) = some n := Redis.toNumber_toString n
  rw [readInt]
  split
  · rename_i hzero
    -- `-0` is read, but not printed.
    have htext : toString n = "-0" := by
      rw [← String.ofList_toList (s := toString n), hzero]
    rw [htext] at hread
    have hn : n = 0 := (Option.some.inj hread).symm
    subst hn
    cases hzero
  · rw [String.ofList_toList, hread]
    simp

/-- A printed integer has digits and a sign only. -/
theorem all_toString (n : ℤ) : (toString n).toList.all isNumberChar := by
  have hdigits (m : ℕ) : (Nat.toDigits 10 m).all isNumberChar := by
    apply List.all_eq_true.mpr
    intro c hc
    simp [isNumberChar, Redis.isDigit_of_mem_toDigits hc]
  cases n with
  | ofNat n =>
    have htext : (toString (Int.ofNat n)).toList = Nat.toDigits 10 n := Redis.toList_toString n
    rw [htext]
    exact hdigits n
  | negSucc n =>
    rw [toList_negSucc, List.all_cons, hdigits]
    rfl

/-- A printed integer is read back as an integer, not as a float. -/
theorem number_toString (n : ℤ) {rest : List Char} (hrest : Stops rest) :
    number ((toString n).toList ++ rest) = some (.int n, rest) := by
  rw [number_append (all_toString n) hrest, readInt_toString]

/-- The text of a float has the characters of a number only. -/
theorem Float.all_number (x : Json.Float) : x.text.all isNumberChar := by
  have hfloat := x.isFloat
  simp only [Json.isFloat, Bool.and_eq_true] at hfloat
  exact hfloat.1.2

/-- A printed float is read back as its own text. -/
theorem number_text (x : Json.Float) {rest : List Char} (hrest : Stops rest) :
    number (x.text ++ rest) = some (.float x, rest) := by
  have hfloat := x.isFloat
  have hint : readInt x.text = none := by
    simp only [isFloat, Bool.and_eq_true, Option.isNone_iff_eq_none] at hfloat
    exact hfloat.2
  rw [number_append x.all_number hrest, hint]
  simp [hfloat]

/-! ### Values -/

/-- Nothing is skipped before a character that is not blank. -/
theorem skip_cons {c : Char} (hc : c ∉ [' ', '\t', '\n', '\r']) (cs : List Char) :
    skip (c :: cs) = c :: cs := by
  rw [skip, List.dropWhile_cons_of_neg]
  simpa [and_assoc] using hc

/-- A blank is skipped. -/
theorem skip_space (cs : List Char) : skip (' ' :: cs) = skip cs :=
  List.dropWhile_cons_of_pos rfl

/-- A printed integer is not empty. -/
theorem toString_head (n : ℤ) : ∃ c cs, (toString n).toList = c :: cs := by
  apply List.exists_cons_of_ne_nil
  intro h
  exact Redis.toString_ne_empty n (String.toList_eq_nil_iff.mp h)

/-- The text of a float is not empty. -/
theorem text_head (x : Json.Float) : ∃ c cs, x.text = c :: cs := by
  apply List.exists_cons_of_ne_nil
  intro h
  have hfloat := x.isFloat
  rw [h] at hfloat
  cases hfloat

/-- What a value starts with. -/
def isHead (c : Char) : Bool := isNumberChar c || ['n', 't', 'f', '"', '[', '\x7b'].contains c

/-- The first character of a printed value says which kind of value it is, and is never blank. -/
theorem print_head (j : Json) : ∃ c cs, print j = c :: cs ∧ isHead c := by
  have hnumber {c : Char} {cs : List Char} (h : (c :: cs).all isNumberChar) : isHead c := by
    have hc := List.all_eq_true.mp h c List.mem_cons_self
    simp [isHead, hc]
  cases j with
  | null => exact ⟨_, _, print.eq_1, rfl⟩
  | bool b =>
    cases b with
    | true => exact ⟨_, _, print.eq_2, rfl⟩
    | false => exact ⟨_, _, print.eq_3, rfl⟩
  | int n =>
    obtain ⟨c, cs, htext⟩ := toString_head n
    have hall := all_toString n
    rw [htext] at hall
    exact ⟨c, cs, by rw [print, htext], hnumber hall⟩
  | float x =>
    obtain ⟨c, cs, htext⟩ := text_head x
    have hall := x.all_number
    rw [htext] at hall
    exact ⟨c, cs, by rw [print, htext], hnumber hall⟩
  | str s => exact ⟨_, _, by rw [print], rfl⟩
  | list items =>
    cases items with
    | nil => exact ⟨_, _, by rw [print], rfl⟩
    | cons j items => exact ⟨_, _, by rw [print], rfl⟩
  | dict items =>
    cases items with
    | nil => exact ⟨_, _, by rw [print], rfl⟩
    | cons item items => exact ⟨_, _, by rw [print], rfl⟩

/-- So nothing is skipped before a printed value. -/
theorem skip_print (j : Json) (rest : List Char) : skip (print j ++ rest) = print j ++ rest := by
  obtain ⟨c, cs, htext, hhead⟩ := print_head j
  rw [htext, List.cons_append]
  apply skip_cons
  intro hspace
  simp only [List.mem_cons, List.not_mem_nil, or_false] at hspace
  rcases hspace with rfl | rfl | rfl | rfl <;> cases hhead

/-- A value that starts like a number is read as one. -/
theorem value_number {c : Char} (hc : isNumberChar c) (fuel : ℕ) (cs : List Char) :
    value (fuel + 1) (c :: cs) = number (c :: cs) := by
  -- Each branch before the last one starts with a character of its own.
  rw [value] <;>
  · intro rest h
    rw [(List.cons.inj h).1] at hc
    cases hc

/-! ### Round trip -/

/-- A number ends before a character that cannot be in one. -/
theorem stops_cons {c : Char} (hc : isNumberChar c = false) (rest : List Char) :
    Stops (c :: rest) := by
  intro d hd
  rwa [← Option.some.inj hd]

/-- After an item comes a comma or a bracket. -/
theorem printItems_stops (items : List Json) (rest : List Char) :
    Stops (printItems items ++ rest) := by
  cases items with
  | nil =>
    rw [printItems]
    exact stops_cons rfl _
  | cons j items =>
    rw [printItems]
    exact stops_cons rfl _

/-- After a member comes a comma or a brace. -/
theorem printMembers_stops (items : List (String × Json)) (rest : List Char) :
    Stops (printMembers items ++ rest) := by
  cases items with
  | nil =>
    rw [printMembers]
    exact stops_cons rfl _
  | cons item items =>
    obtain ⟨key, j⟩ := item
    rw [printMembers]
    exact stops_cons rfl _

/-- A value does not end its list. -/
theorem print_not_closing (j : Json) (rest cs : List Char) : print j ++ rest ≠ ']' :: cs := by
  obtain ⟨c, text, htext, hhead⟩ := print_head j
  rw [htext, List.cons_append]
  intro h
  rw [(List.cons.inj h).1] at hhead
  cases hhead

/-- Values whose text is shorter than `fuel` are read back, whatever stands behind them. -/
def ReadsValue (fuel : ℕ) : Prop :=
  ∀ (j : Json) (rest : List Char), (print j).length < fuel → Stops rest →
    value fuel (print j ++ rest) = some (j, rest)

/-- The items of a list, the first one among them. -/
def ReadsItems (fuel : ℕ) : Prop :=
  ∀ (j : Json) (rows : List Json) (rest : List Char), (print j ++ printItems rows).length < fuel →
    items fuel (print j ++ printItems rows ++ rest) = some (j :: rows, rest)

/-- The members of an object, the first one among them. -/
def ReadsMembers (fuel : ℕ) : Prop :=
  ∀ (key : String) (j : Json) (rows : List (String × Json)) (rest : List Char),
    (printMember key j rows).length < fuel →
    members fuel (printMember key j rows ++ rest) = some ((key, j) :: rows, rest)

/-- One more level of values, given the lists and the objects inside. The kinds of value are the
cases; the fuel goes down with the nesting. -/
theorem readsValue_succ {fuel : ℕ} (hitems : ReadsItems fuel) (hmembers : ReadsMembers fuel) :
    ReadsValue (fuel + 1) := by
  intro j rest hfuel hrest
  match j with
  | .null =>
    rw [print]
    rfl
  | .bool true =>
    rw [print]
    rfl
  | .bool false =>
    rw [print]
    rfl
  | .int n =>
    rw [print]
    obtain ⟨c, cs, htext⟩ := toString_head n
    have hall := all_toString n
    have hread := number_toString n hrest
    rw [htext] at hall hread ⊢
    rw [List.cons_append] at hread ⊢
    rw [value_number (List.all_eq_true.mp hall c List.mem_cons_self), hread]
  | .float x =>
    rw [print]
    obtain ⟨c, cs, htext⟩ := text_head x
    have hall := x.all_number
    have hread := number_text x hrest
    rw [htext] at hall hread ⊢
    rw [List.cons_append] at hread ⊢
    rw [value_number (List.all_eq_true.mp hall c List.mem_cons_self), hread]
  | .str s =>
    rw [print, List.cons_append, value, scan_quoted]
    simp
  | .list [] =>
    rw [print]
    rfl
  | .list (j :: rows) =>
    rw [print, List.length_cons] at hfuel
    rw [print, List.cons_append, value, List.append_assoc, skip_print]
    split
    · rename_i cs hclosing
      exact absurd hclosing (print_not_closing j _ cs)
    · rw [← List.append_assoc, hitems j rows rest (by omega)]
      rfl
  | .dict [] =>
    rw [print]
    rfl
  | .dict ((key, j) :: rows) =>
    rw [print, List.length_cons] at hfuel
    have hread := hmembers key j rows rest (by
      rw [printMember]
      omega)
    rw [printMember, List.cons_append] at hread
    rw [print, List.cons_append, value, List.cons_append, skip_cons (by decide)]
    split
    · rename_i hclosing
      cases (List.cons.inj hclosing).1
    · rw [hread]
      rfl

/-- One more item of a list. -/
theorem readsItems_succ {fuel : ℕ} (hvalue : ReadsValue fuel) (hitems : ReadsItems fuel) :
    ReadsItems (fuel + 1) := by
  intro j rows rest hfuel
  rw [List.length_append] at hfuel
  have hpos : 0 < (printItems rows).length := by
    cases rows <;> rw [printItems] <;> exact Nat.succ_pos _
  rw [List.append_assoc, items, hvalue j _ (by omega) (printItems_stops rows rest)]
  cases rows with
  | nil =>
    rw [printItems]
    rfl
  | cons next rows =>
    rw [printItems, List.length_cons, List.length_cons] at hfuel
    have hread := hitems next rows rest (by omega)
    simp only [printItems, List.cons_append]
    rw [skip_cons (by decide)]
    simp only
    rw [skip_space, List.append_assoc, skip_print, ← List.append_assoc, hread]
    rfl

/-- One more member of an object. -/
theorem readsMembers_succ {fuel : ℕ} (hvalue : ReadsValue fuel) (hmembers : ReadsMembers fuel) :
    ReadsMembers (fuel + 1) := by
  intro key j rows rest hfuel
  simp only [printMember, List.length_append, List.length_cons] at hfuel
  have hread := hvalue j _ (by omega) (printMembers_stops rows rest)
  rw [printMember, List.cons_append, members, List.append_assoc, scan_quoted]
  simp only [List.cons_append]
  rw [skip_cons (by decide)]
  simp only
  rw [skip_space, List.append_assoc, skip_print, hread]
  cases rows with
  | nil =>
    rw [printMembers]
    simp only [List.cons_append, List.nil_append, String.ofList_toList]
    rw [skip_cons (by decide)]
    rfl
  | cons row rows =>
    obtain ⟨key', next⟩ := row
    simp only [printMembers, List.length_append, List.length_cons] at hfuel
    have hread' := hmembers key' next rows rest (by
      simp only [printMember, List.length_append, List.length_cons]
      omega)
    rw [printMember] at hread'
    simp only [printMembers, List.cons_append]
    rw [skip_cons (by decide)]
    simp only
    rw [skip_space, skip_cons (by decide), ← List.cons_append, hread']
    simp

/-- **Printed values, items and members are read back**, by induction on the fuel. -/
theorem reads (fuel : ℕ) : ReadsValue fuel ∧ ReadsItems fuel ∧ ReadsMembers fuel := by
  induction fuel with
  | zero =>
    refine ⟨?_, ?_, ?_⟩
    · intro _ _ hfuel
      exact absurd hfuel (Nat.not_lt_zero _)
    · intro _ _ _ hfuel
      exact absurd hfuel (Nat.not_lt_zero _)
    · intro _ _ _ _ hfuel
      exact absurd hfuel (Nat.not_lt_zero _)
  | succ fuel ih =>
    obtain ⟨hvalue, hitems, hmembers⟩ := ih
    exact ⟨readsValue_succ hitems hmembers, readsItems_succ hvalue hitems,
      readsMembers_succ hvalue hmembers⟩

/-- **A value comes back from its text.** -/
theorem loads_dumps (j : Json) : loads (dumps j) = some j := by
  have hread := (reads ((print j).length + 1)).1 j [] (Nat.lt_succ_self _) (by simp [Stops])
  rw [List.append_nil] at hread
  have hskip : skip (print j) = print j := by simpa using skip_print j []
  rw [loads, dumps, String.toList_ofList, hskip, hread]
  rfl

end Json
