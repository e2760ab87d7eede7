namespace AwaitStore.Text

def isBlank (c : Char) : Bool :=
  let n := c.toNat
  (9 ≤ n && n ≤ 13) || n == 0x20 || n == 0x85 || n == 0xA0 || n == 0x1680 || (0x2000 ≤ n && n ≤ 0x200A)
    || n == 0x2028 || n == 0x2029 || n == 0x202F || n == 0x205F || n == 0x3000

abbrev Chars := List Char

def trimStart (cs : Chars) : Chars := cs.dropWhile isBlank

def trimEnd (cs : Chars) : Chars := (cs.reverse.dropWhile isBlank).reverse

def trim (cs : Chars) : Chars := trimEnd (trimStart cs)

def splitWord (cs : Chars) : Chars × Chars :=
  let cs := trimStart cs
  (cs.takeWhile (fun c => !isBlank c), trimStart (cs.dropWhile (fun c => !isBlank c)))

theorem length_trimStart_le (cs : Chars) : (trimStart cs).length ≤ cs.length :=
  (List.dropWhile_sublist _).length_le

theorem length_splitWord_snd_le (cs : Chars) : (splitWord cs).2.length ≤ cs.length :=
  Nat.le_trans (length_trimStart_le _)
    (Nat.le_trans (List.dropWhile_sublist _).length_le (length_trimStart_le cs))

def wordsUpTo : Nat → Chars → List Chars
  | 0, _ => []
  | fuel + 1, cs =>
      match splitWord cs with
      | ([], _) => []
      | (word, rest) => word :: wordsUpTo fuel rest

def words (cs : Chars) : List Chars := wordsUpTo cs.length cs

def fields (sep : Char) : Chars → List Chars
  | [] => [[]]
  | c :: cs =>
      if c = sep then [] :: fields sep cs
      else
        match fields sep cs with
        | [] => [[c]]
        | first :: others => (c :: first) :: others

def cutAfter (c : Char) : Chars → Option (Chars × Chars)
  | [] => none
  | d :: cs => if d = c then some ([d], cs) else (cutAfter c cs).map fun (front, rest) => (d :: front, rest)

theorem cutAfter_append {c : Char} {cs front rest : Chars} (h : cutAfter c cs = some (front, rest)) :
    front ++ rest = cs := by
  induction cs generalizing front rest with
  | nil => cases h
  | cons d cs ih =>
      unfold cutAfter at h
      split at h
      · cases h; rfl
      · obtain ⟨⟨f, r⟩, hf, he⟩ := Option.map_eq_some_iff.1 h
        cases he
        simp [ih hf]

theorem cutAfter_ne_nil {c : Char} {cs front rest : Chars} (h : cutAfter c cs = some (front, rest)) :
    front ≠ [] := by
  cases cs with
  | nil => cases h
  | cons d cs =>
      unfold cutAfter at h
      split at h
      · cases h; simp
      · obtain ⟨⟨f, r⟩, _, he⟩ := Option.map_eq_some_iff.1 h
        cases he
        simp

def isDigit (c : Char) : Bool := '0' ≤ c && c ≤ '9'

/-- The number in decimal digits, unless it is above `max`. Nothing is read behind the digit that passes
the bound. -/
def digitsUpTo? (max : Nat) (ds : Chars) : Option Nat :=
  ds.foldlM (fun n d =>
    let n := n * 10 + (d.toNat - '0'.toNat)
    if n ≤ max then some n else none) 0

def hexDigit? (c : Char) : Option Nat :=
  if '0' ≤ c ∧ c ≤ '9' then some (c.toNat - '0'.toNat)
  else if 'a' ≤ c ∧ c ≤ 'f' then some (c.toNat - 'a'.toNat + 10)
  else if 'A' ≤ c ∧ c ≤ 'F' then some (c.toNat - 'A'.toNat + 10)
  else none

def number? (max : Nat) (cs : Chars) : Option Nat :=
  if !cs.isEmpty && cs.all isDigit then digitsUpTo? max cs else none

end AwaitStore.Text
