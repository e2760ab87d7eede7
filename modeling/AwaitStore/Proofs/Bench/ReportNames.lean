import AwaitStore.Bench.Suite
import Mathlib.Data.List.Nodup

namespace AwaitStore.Bench

def mixStems : List (String × Bool) := [("Mostly_reads", false), ("Balanced", false), ("Balanced_with_getWhen", true)]

def numberedName (front : String) (workers : Nat) : String :=
  front ++ toString workers ++ if workers = 1 then "_thread.csv" else "_threads.csv"

def isPlain (c : Char) : Bool := !c.isDigit && c != '/'

section Names

variable {front other : String} {m n : Nat} {c : Char}

theorem toList_numberedName (front : String) (n : Nat) : (numberedName front n).toList =
    front.toList ++ (Nat.toDigits 10 n ++ (if n = 1 then "_thread.csv" else "_threads.csv").toList) := by
  rw [numberedName, String.toList_append, String.toList_append, Nat.toString_eq_repr, Nat.toList_repr,
    List.append_assoc]

theorem isDigit_of_mem_toDigits (h : c ∈ Nat.toDigits 10 n) : c.isDigit = true :=
  Nat.isDigit_of_mem_toDigits (by decide) (by decide) h

theorem exists_digit (n : Nat) : ∃ digit digits, Nat.toDigits 10 n = digit :: digits ∧ digit.isDigit = true := by
  obtain ⟨digit, digits, he⟩ := List.exists_cons_of_ne_nil (Nat.toDigits_ne_nil (n := n) (b := 10))
  exact ⟨digit, digits, he, isDigit_of_mem_toDigits (he ▸ List.mem_cons_self)⟩

/-- The front, if it is plain, and the number can be read off the name again. -/
theorem numberedName_inj (hf : front.toList.all isPlain = true) (ho : other.toList.all isPlain = true)
    (h : numberedName front m = numberedName other n) : front = other ∧ m = n := by
  have hfront {text : String} (ht : text.toList.all isPlain = true) (k : Nat) :
      (numberedName text k).toList.takeWhile isPlain = text.toList := by
    obtain ⟨digit, digits, hdigits, hdigit⟩ := exists_digit k
    rw [toList_numberedName, List.takeWhile_append_of_pos (List.all_eq_true.mp ht), hdigits, List.cons_append,
      List.takeWhile_cons_of_neg (by simp [isPlain, hdigit]), List.append_nil]
  have hnumber (k : Nat) :
      (Nat.toDigits 10 k ++ (if k = 1 then "_thread.csv" else "_threads.csv").toList).takeWhile Char.isDigit =
        Nat.toDigits 10 k := by
    rw [List.takeWhile_append_of_pos fun c hc => isDigit_of_mem_toDigits hc]
    split <;> exact List.append_nil _
  have hchars := congrArg String.toList h
  obtain rfl : front = other := by
    have hboth := congrArg (List.takeWhile isPlain) hchars
    rw [hfront hf, hfront ho] at hboth
    exact String.toList_inj.mp hboth
  rw [toList_numberedName, toList_numberedName, List.append_cancel_left_eq] at hchars
  have hdigits := congrArg (List.takeWhile Char.isDigit) hchars
  rw [hnumber, hnumber] at hdigits
  refine ⟨rfl, ?_⟩
  rw [← Nat.ofDigitChars_ten_toDigits (n := m), hdigits, Nat.ofDigitChars_ten_toDigits]

theorem exists_digit_mem_numberedName (front : String) (n : Nat) :
    ∃ c ∈ (numberedName front n).toList, c.isDigit = true := by
  obtain ⟨digit, digits, hdigits, hdigit⟩ := exists_digit n
  exact ⟨digit, by simp [toList_numberedName, hdigits], hdigit⟩

theorem slash_notMem_numberedName (hf : front.toList.all isPlain = true) (n : Nat) :
    '/' ∉ (numberedName front n).toList := by
  rw [toList_numberedName, List.mem_append, List.mem_append, not_or, not_or]
  refine ⟨fun hc => ?_, fun hd => absurd (isDigit_of_mem_toDigits hd) (by decide), ?_⟩
  · exact absurd (List.all_eq_true.mp hf _ hc) (by decide)
  · split <;> decide

end Names

namespace Suite

variable {s : Suite}

def fronts (s : Suite) : List String :=
  mixStems.flatMap fun mix =>
    (s.kinds.filter fun kind => !mix.2 || kind.supportsGetWhen).map fun kind => s!"{kind.name}_{mix.1}_"

def resultsNames (s : Suite) : List String :=
  s.settings.workerCounts.flatMap fun workers => s.fronts.map (numberedName · workers)

def tableNames (s : Suite) : List String :=
  if s.settings.workerCounts = [] then [] else (mixStems.filter fun mix => !mix.2).map fun mix => mix.1 ++ ".csv"

theorem fronts_eq (s : Suite) : s.fronts =
    ["SimpleHashMapBackend_Mostly_reads_", "MultiConditionHashMapBackend_Mostly_reads_",
      "ShardedHashMapBackend_Mostly_reads_", "SimpleHashMapBackend_Balanced_", "MultiConditionHashMapBackend_Balanced_",
      "ShardedHashMapBackend_Balanced_", "SimpleHashMapBackend_Balanced_with_getWhen_",
      "MultiConditionHashMapBackend_Balanced_with_getWhen_"] := rfl

theorem isPlain_of_mem_fronts {front : String} (h : front ∈ s.fronts) : front.toList.all isPlain = true := by
  have hkind (kind : Store.Kind) : kind.name.toList.all isPlain = true := by
    cases kind <;> simp only [Store.Kind.name] <;> decide
  have hstem : mixStems.all (fun mix => mix.1.toList.all isPlain) = true := by decide
  obtain ⟨mix, hmix, hfront⟩ := List.mem_flatMap.mp h
  obtain ⟨kind, -, rfl⟩ := List.mem_map.mp hfront
  simp only [String.toList_append, List.all_append, toString, hkind kind, List.all_eq_true.mp hstem mix hmix]
  decide

theorem isPlain_of_mem_tableNames {name : String} (h : name ∈ s.tableNames) : name.toList.all isPlain = true := by
  have hstem : mixStems.all (fun mix => (mix.1 ++ ".csv").toList.all isPlain) = true := by decide
  unfold tableNames at h
  split at h
  · cases h
  · obtain ⟨mix, hmix, rfl⟩ := List.mem_map.mp h
    exact List.all_eq_true.mp hstem mix (List.mem_filter.mp hmix).1

theorem nodup_names (hn : s.settings.workerCounts.Nodup) : (s.resultsNames ++ s.tableNames).Nodup := by
  have hfronts : s.fronts.Nodup := by
    rw [fronts_eq]
    decide
  have hinj {front other : String} (hf : front ∈ s.fronts) (ho : other ∈ s.fronts) {m n : Nat}
      (he : numberedName front m = numberedName other n) : front = other ∧ m = n :=
    numberedName_inj (isPlain_of_mem_fronts hf) (isPlain_of_mem_fronts ho) he
  refine List.nodup_append'.mpr ⟨List.nodup_flatMap.mpr ⟨fun n _ => ?_, ?_⟩, ?_, ?_⟩
  · exact hfronts.map_on fun front hf other ho he => (hinj hf ho he).1
  · refine hn.imp fun {m n} hne name hm hn => hne ?_
    obtain ⟨front, hf, rfl⟩ := List.mem_map.mp hm
    obtain ⟨other, ho, he⟩ := List.mem_map.mp hn
    exact (hinj hf ho he.symm).2
  · unfold tableNames
    split
    · exact List.nodup_nil
    · decide
  · -- A table has no number in its name.
    intro name hresults htable
    obtain ⟨n, -, hn⟩ := List.mem_flatMap.mp hresults
    obtain ⟨front, -, rfl⟩ := List.mem_map.mp hn
    obtain ⟨c, hc, hdigit⟩ := exists_digit_mem_numberedName front n
    have hplain := List.all_eq_true.mp (isPlain_of_mem_tableNames htable) c hc
    simp [isPlain, hdigit] at hplain

theorem slash_notMem_names {name : String} (h : name ∈ s.resultsNames ++ s.tableNames) : '/' ∉ name.toList := by
  rcases List.mem_append.mp h with h | h
  · obtain ⟨n, -, hn⟩ := List.mem_flatMap.mp h
    obtain ⟨front, hf, rfl⟩ := List.mem_map.mp hn
    exact slash_notMem_numberedName (isPlain_of_mem_fronts hf) n
  · exact fun hc => absurd (List.all_eq_true.mp (isPlain_of_mem_tableNames h) _ hc) (by decide)

theorem inDirectory_inj {directory first second : String}
    (h : inDirectory directory first = inDirectory directory second) : first = second := by
  unfold inDirectory at h
  split at h <;> simpa using h

end Suite

end AwaitStore.Bench
