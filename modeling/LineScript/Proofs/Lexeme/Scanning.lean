import LineScript.Proofs.Lexeme.Spelling

/-!
# The lexemes of a script

Every lexeme that a scan finds can be spelled, unless it is a float (`Lexeme.scannable_of_scan`),
and so can every lexeme of a script (`Lexeme.scannable_of_mem`).  Conversely, lexemes that can be
spelled are those of the script in which they are written one after the other
(`Lexeme.lexemes_printed`).
-/

namespace LineScript.Lexeme

open Number

def Scannable (l : Lexeme) : Prop :=
  l.Spelled ∨ ∃ x, l = .float x

/-!
## Words and numbers
-/

theorem spelled_scanWord {c : Char} {cs rest : List Char} {l : Lexeme}
    (start : isWordStart c = true)
    (found : scanWord (c :: cs) = .lexeme l rest) : l.Spelled := by
  unfold scanWord at found
  cases found
  rw [List.takeWhile_cons_of_pos (isWordChar_of_isWordStart start)]
  generalize letters : String.ofList (c :: cs.takeWhile isWordChar) = word
  have letters : word.toList = c :: cs.takeWhile isWordChar := by
    rw [← letters, String.toList_ofList]
  unfold ofWord
  cases reservedWord : reserved.lookup word with
  | none =>
      simp only [Option.getD_none, Spelled, isName, letters, reservedWord, Bool.and_eq_true]
      exact ⟨⟨start, List.all_takeWhile⟩, rfl⟩
  | some l =>
      have all : ∀ entry ∈ reserved, entry.2.Spelled := by simp [reserved, Spelled]
      exact all _ (mem_of_lookup reservedWord)

theorem spelled_scanLabel {cs rest : List Char} {l : Lexeme}
    (found : scanLabel cs = .lexeme l rest) :
    l.Spelled := by
  unfold scanLabel at found
  split at found
  · cases found
  · split at found
    · rename_i c more start
      cases found
      rw [List.takeWhile_cons_of_pos (isWordChar_of_isWordStart start)]
      simp only [Spelled, String.toList_ofList]
      exact ⟨start, List.all_takeWhile⟩
    · cases found

theorem nonneg_of_narrow? {n : Nat} {i : Int64} (fits : narrow? n = some i) : 0 ≤ i.toInt := by
  unfold narrow? at fits
  split at fits
  · rename_i range
    cases fits
    have low : -2 ^ 63 ≤ (n : Int) := by omega
    have high : (n : Int) < 2 ^ 63 := by
      have := range.2
      simp only [Int64.toInt_maxValue] at this
      omega
    rw [Int64.toInt_ofInt_of_le low high]
    exact Int.natCast_nonneg n
  · cases fits

theorem literal_eq_lexeme {text rest rest' : List Char} {l? : Option Lexeme} {l : Lexeme}
    (found : Scan.literal text l? rest = .lexeme l rest') : l? = some l := by
  cases l? with
  | none => cases found
  | some l' =>
      cases found
      rfl

theorem spelled_integer {digits : List Char} {l : Lexeme} (found : integer? digits = some l) :
    l.Spelled := by
  obtain ⟨n, fits, rfl⟩ := Option.map_eq_some_iff.1 found
  exact nonneg_of_narrow? fits

theorem scannable_scanNumber {cs rest : List Char} {l : Lexeme}
    (found : scanNumber cs = .lexeme l rest) : l.Scannable := by
  unfold scanNumber at found
  simp only at found
  split at found
  · split at found
    · exact .inl (spelled_integer (literal_eq_lexeme found))
    · cases found
      exact .inr ⟨_, rfl⟩
  · exact .inl (spelled_integer (literal_eq_lexeme found))

/-!
## All lexemes
-/

theorem spelled_scanString {cs rest : List Char} {l : Lexeme}
    (found : scanString cs = .lexeme l rest) :
    l.Spelled := by
  unfold scanString at found
  split at found
  · obtain ⟨s, -, rfl⟩ := Option.map_eq_some_iff.1 (literal_eq_lexeme found)
    trivial
  · cases found

theorem spelled_scanTemplate {cs rest : List Char} {l : Lexeme}
    (found : scanTemplate cs = .lexeme l rest) : l.Spelled := by
  unfold scanTemplate at found
  split at found
  · obtain ⟨s, -, rfl⟩ := Option.map_eq_some_iff.1 (literal_eq_lexeme found)
    trivial
  · exact spelled_scanWord (by decide) found

theorem spelled_of_singles {c : Char} {l : Lexeme} (found : singles.lookup c = some l) :
    l.Spelled := by
  have all : ∀ entry ∈ singles, entry.2.Spelled := by simp [singles, Spelled]
  exact all _ (mem_of_lookup found)

theorem spelled_of_pairs {c d : Char} {l : Lexeme} (found : pairs.lookup (c, d) = some l) :
    l.Spelled := by
  have all : ∀ entry ∈ pairs, entry.2.Spelled := by simp [pairs, Spelled]
  exact all _ (mem_of_lookup found)

theorem spelled_scanSymbol {c : Char} {cs rest : List Char} {l : Lexeme}
    (found : scanSymbol c cs = .lexeme l rest) : l.Spelled := by
  unfold scanSymbol at found
  cases single : singles.lookup c with
  | none =>
      simp only [single] at found
      split at found
      · cases found
      · split at found
        · rename_i pair
          cases found
          exact spelled_of_pairs pair
        · cases found
  | some m =>
      simp only [single] at found
      split at found
      · cases found
        exact spelled_of_singles single
      · split at found
        · rename_i pair
          cases found
          exact spelled_of_pairs pair
        · cases found
          exact spelled_of_singles single

theorem spelled_scanSlash {cs rest : List Char} {l : Lexeme}
    (found : scanSlash cs = .lexeme l rest) :
    l.Spelled := by
  unfold scanSlash at found
  split at found
  · cases found
  · split at found
    · cases found
    · exact spelled_scanSymbol found
  · exact spelled_scanSymbol found

theorem scannable_of_scan {c : Char} {cs rest : List Char} {l : Lexeme}
    (found : scan c cs = .lexeme l rest) : l.Scannable := by
  unfold scan at found
  split at found
  · cases found
  split at found
  · exact scannable_scanNumber found
  split at found
  · exact .inl (spelled_scanString found)
  split at found
  · exact .inl (spelled_scanTemplate found)
  split at found
  · rename_i start
    exact .inl (spelled_scanWord start found)
  split at found
  · exact .inl (spelled_scanLabel found)
  split at found
  · exact .inl (spelled_scanSlash found)
  · exact .inl (spelled_scanSymbol found)

theorem scannable_of_mem {n : Nat} {cs : List Char} {ls : List (Lexeme × Nat)}
    (lexed : lexFrom n cs = .ok ls) : ∀ l ∈ ls, l.1.Scannable := by
  fun_induction lexFrom n cs generalizing ls with
  | case1 n =>
      cases lexed
      nofun
  | case2 n c cs l rest found ih =>
      cases later : lexFrom (n + l.newlines) rest with
      | error e =>
          rw [later] at lexed
          cases lexed
      | ok more =>
          rw [later] at lexed
          cases lexed
          intro m member
          rcases List.mem_cons.1 member with rfl | member
          · exact scannable_of_scan found
          · exact ih later m member
  | case3 n c cs k rest found ih => exact ih lexed
  | case4 n c cs text found => cases lexed

/-!
## Printing
-/

def printed (ls : List Lexeme) : String :=
  String.ofList ([' '].intercalate (ls.map spelling))

def numbered : Nat → List Lexeme → List (Lexeme × Nat)
  | _, [] => []
  | n, l :: ls => (l, n) :: numbered (n + l.newlines) ls

theorem map_fst_numbered (n : Nat) (ls : List Lexeme) : (numbered n ls).map Prod.fst = ls := by
  induction ls generalizing n with
  | nil => rfl
  | cons l ls ih => rw [numbered, List.map_cons, ih]

theorem lexFrom_printed {ls : List Lexeme} (spelled : ∀ l ∈ ls, l.Spelled) (n : Nat) :
    lexFrom n ([' '].intercalate (ls.map spelling)) = .ok (numbered n ls) := by
  induction ls generalizing n with
  | nil =>
      rw [List.map_nil, List.intercalate_nil, lexFrom]
      rfl
  | cons l ls ih =>
      rw [List.forall_mem_cons] at spelled
      cases ls with
      | nil =>
          -- The last lexeme ends the text.
          have last := lexFrom_spelling spelled.1 parted_nil n
          rw [List.append_nil] at last
          rw [List.map_singleton, List.intercalate_singleton, last, lexFrom]
          rfl
      | cons m ls =>
          have blank : Parted (' ' :: [' '].intercalate ((m :: ls).map spelling)) := by
            intro c head
            cases head
            exact .inl rfl
          rw [List.map_cons, List.intercalate_cons_of_ne_nil (by simp), List.append_assoc,
            List.singleton_append, lexFrom_spelling spelled.1 blank, lexFrom_blank, ih spelled.2]
          rfl

/-- A script of lexemes in their spelling has exactly these lexemes. -/
theorem lexemes_printed {ls : List Lexeme} (spelled : ∀ l ∈ ls, l.Spelled) :
    lexemes (printed ls) = .ok (numbered 1 ls) ∧ (numbered 1 ls).map Prod.fst = ls := by
  refine ⟨?_, map_fst_numbered 1 ls⟩
  rw [lexemes, printed, String.toList_ofList, lexFrom_printed spelled]

/-- The name `f` before a string with all that is escaped, and two divisions on the next line. -/
theorem lexemes_printed_escapes :
    lexemes (printed [.name "f", .string "\"\\\n\t", .newline, .operator .div, .operator .div]) =
      .ok [(.name "f", 1), (.string "\"\\\n\t", 1), (.newline, 1), (.operator .div, 2),
        (.operator .div, 2)] := by
  refine (lexemes_printed ?_).1
  simp only [List.forall_mem_cons, List.not_mem_nil, false_implies, implies_true, and_true]
  exact ⟨rfl, trivial, trivial, nofun, nofun⟩

end LineScript.Lexeme
