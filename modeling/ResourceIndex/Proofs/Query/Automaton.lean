import Mathlib.Data.Fintype.BigOperators
import Mathlib.Data.List.TakeWhile
import ResourceIndex.Query.Automaton
/-
The states of automata. What has been reached after a text decides what may follow it, so that the
start decides which texts fit. All states that texts lead to are found, or none if they are too
many. They are many for an expression that asks for a character so and so far from the end: it has
to remember of each of the last characters whether it was that one.
-/
namespace ResourceIndex.Query.Regex

variable {ps : List Piece} {places : Places} {x : Char}

/-- Whether a text may follow: the pieces behind some place that has been reached take it. -/
def takesFrom : List Piece → Places → List Char → Bool
  | p :: ps, reached :: places, s => (reached && fits (p :: ps) s) || takesFrom ps places s
  | [], reached :: _, s => reached && s.isEmpty
  | _, [], _ => false

/-- What has been reached after a text. -/
def placesAfter (ps : List Piece) (places : Places) (t : List Char) : Places :=
  t.foldl (fun places x => advance x false false ps places) places

theorem fits_cons_cons (p : Piece) (ps : List Piece) (x : Char) (s : List Char) :
    fits (p :: ps) (x :: s) = ((takes p x && fits ps s) ||
      (p == .run && (fits ps (x :: s) || (x != '\n' && fits (p :: ps) s)))) := by
  cases p with
  | run => simp only [fits, afterRun, takes, Bool.false_and, Bool.false_or, beq_self_eq_true,
      Bool.true_and]
  | any => simp only [fits, takes, Bool.false_and, Bool.or_false,
      show (Piece.any == Piece.run) = false from rfl]
  | char c => simp only [fits, takes, Bool.false_and, Bool.or_false,
      show (Piece.char c == Piece.run) = false from rfl]

theorem length_advance (h : places.length = ps.length + 1) (skipped passed : Bool) :
    (advance x skipped passed ps places).length = ps.length + 1 := by
  induction ps generalizing places skipped passed with
  | nil => rfl
  | cons p ps ih =>
    cases places with
    | nil => cases h
    | cons reached places => exact congrArg Nat.succ (ih (Nat.succ.inj h) _ _)

/-- One case for each place: what may follow a character is what may follow with it. -/
theorem takesFrom_advance (h : places.length = ps.length + 1) (skipped passed : Bool)
    (s : List Char) :
    takesFrom ps (advance x skipped passed ps places) s =
      ((passed && fits ps s) || (skipped && fits ps (x :: s)) ||
        takesFrom ps places (x :: s)) := by
  induction ps generalizing places skipped passed with
  | nil =>
    cases places with
    | nil => cases h
    | cons reached places =>
      simp only [advance, takesFrom, fits, List.isEmpty_cons, Bool.and_false, Bool.or_false]
  | cons p ps ih =>
    cases places with
    | nil => cases h
    | cons reached places =>
      rw [advance, takesFrom, ih (Nat.succ.inj h), takesFrom, fits_cons_cons]
      generalize fits (p :: ps) s = stays
      generalize fits ps s = goes
      generalize fits ps (x :: s) = jumps
      generalize takesFrom ps places (x :: s) = others
      generalize takes p x = taken
      generalize (p == Piece.run) = isRun
      generalize (x != '\n') = plain
      cases isRun with
      | true => grind
      | false => grind

theorem length_start (ps : List Piece) : (start ps).length = ps.length + 1 :=
  congrArg Nat.succ (List.length_map _)

theorem takesFrom_unreached (ps : List Piece) (s : List Char) :
    takesFrom ps (List.replicate (ps.length + 1) false) s = false := by
  induction ps with
  | nil => rfl
  | cons p ps ih =>
    rw [List.length_cons, List.replicate_succ, takesFrom, ih]
    rfl

theorem takesFrom_start (ps : List Piece) (s : List Char) :
    takesFrom ps (start ps) s = fits ps s := by
  cases ps with
  | nil => rfl
  | cons p ps =>
    rw [start, List.map_const', List.length_cons, takesFrom, takesFrom_unreached, Bool.true_and,
      Bool.or_false]

theorem takesFrom_placesAfter (h : places.length = ps.length + 1) (t s : List Char) :
    takesFrom ps (placesAfter ps places t) s = takesFrom ps places (t ++ s) := by
  induction t generalizing places with
  | nil => rfl
  | cons x t ih =>
    refine (ih (length_advance h false false)).trans ?_
    rw [takesFrom_advance h, Bool.false_and, Bool.false_and, Bool.or_self, Bool.false_or]
    rfl

/-- A text is taken by an expression if its end may follow what has been reached before. -/
theorem fits_append (ps : List Piece) (t s : List Char) :
    fits ps (t ++ s) = takesFrom ps (placesAfter ps (start ps) t) s := by
  rw [takesFrom_placesAfter (length_start ps), takesFrom_start]

section

variable {α : Type} {next : α → List α} {seen pending found : List α}

/-- What comes of a search, which meets all that is pending and all that follows it. -/
structure Explored (next : α → List α) (room : Nat) (seen pending found : List α) : Prop where
  keeps : ∀ x ∈ seen, x ∈ found
  meets : ∀ x ∈ pending, x ∈ found
  closed : ∀ x ∈ found, ∀ y ∈ next x, y ∈ found
  length_le : found.length ≤ seen.length + room

theorem explored_self (hseen : ∀ x ∈ seen, ∀ y ∈ next x, y ∈ seen ∨ y ∈ pending)
    (hall : ∀ x ∈ pending, x ∈ seen) (room : Nat) : Explored next room seen pending seen where
  keeps := fun _ => id
  meets := hall
  closed := fun x hx y hy => (hseen x hx y hy).elim id (hall y)
  length_le := Nat.le_add_right _ _

section

variable {state : α} {rest : List α} {room : Nat}

/-- What follows a state is pending when the state has been met. -/
theorem follows_cons (hseen : ∀ x ∈ seen, ∀ y ∈ next x, y ∈ seen ∨ y ∈ pending)
    (hpending : ∀ x ∈ pending, x ∈ seen ∨ x ∈ state :: rest) :
    ∀ x ∈ state :: seen, ∀ y ∈ next x, y ∈ state :: seen ∨ y ∈ next state ++ rest := by
  intro x hx y hy
  rw [List.mem_append]
  rcases List.mem_cons.mp hx with rfl | hx
  · exact .inr (.inl hy)
  · rcases (hseen x hx y hy).elim .inl (hpending y) with hy | hy
    · exact .inl (List.mem_cons_of_mem state hy)
    · exact (List.mem_cons.mp hy).imp (fun heq => List.mem_cons.mpr (.inl heq)) .inr

theorem Explored.of_cons (hpending : ∀ x ∈ pending, x ∈ seen ∨ x ∈ state :: rest)
    (h : Explored next room (state :: seen) (next state ++ rest) found) :
    Explored next (room + 1) seen pending found where
  keeps := fun x hx => h.keeps x (List.mem_cons_of_mem state hx)
  meets := by
    intro x hx
    rcases hpending x hx with hx | hx
    · exact h.keeps x (List.mem_cons_of_mem state hx)
    · rcases List.mem_cons.mp hx with rfl | hx
      · exact h.keeps x List.mem_cons_self
      · exact h.meets x (List.mem_append_right _ hx)
  closed := h.closed
  length_le := by
    have hle := h.length_le
    rw [List.length_cons] at hle
    omega

end

theorem mem_or_mem_dropWhile [BEq α] [LawfulBEq α] {x : α} (hx : x ∈ pending) :
    x ∈ seen ∨ x ∈ pending.dropWhile seen.contains := by
  rw [← List.takeWhile_append_dropWhile (p := seen.contains) (l := pending),
    List.mem_append] at hx
  exact hx.imp_left fun htaken => List.contains_iff_mem.mp (List.mem_takeWhile_imp htaken)

/-- Whatever follows what has been seen is seen too or pending, at each state that is met. -/
theorem explored_of_explore [BEq α] [LawfulBEq α] {room : Nat}
    (h : explore next room seen pending = some found)
    (hseen : ∀ x ∈ seen, ∀ y ∈ next x, y ∈ seen ∨ y ∈ pending) :
    Explored next room seen pending found := by
  induction room generalizing seen pending with
  | zero =>
    rw [explore] at h
    split at h
    · rename_i hall
      cases h
      refine explored_self hseen (fun x hx => ?_) 0
      exact List.contains_iff_mem.mp (List.all_eq_true.mp hall x hx)
    · cases h
  | succ room ih =>
    have hpending : ∀ x ∈ pending, x ∈ seen ∨ x ∈ pending.dropWhile seen.contains :=
      fun x => mem_or_mem_dropWhile
    rw [explore] at h
    split at h
    · rename_i hnil
      cases h
      rw [hnil] at hpending
      exact explored_self hseen (fun x hx => (hpending x hx).resolve_right List.not_mem_nil) _
    · rename_i state rest hcons
      rw [hcons] at hpending
      exact .of_cons hpending (ih h (follows_cons hseen hpending))

end

/-- The states that are found are not more than the limit, and all texts of the alphabet lead to
one of them. -/
theorem states?_spec {limit : Nat} {found : List Places} (h : states? limit ps = some found) :
    found.length ≤ limit ∧ ∀ t : List Char, (∀ x ∈ t, x ∈ alphabet ps) →
      placesAfter ps (start ps) t ∈ found := by
  have hfound := explored_of_explore h fun x hx => absurd hx List.not_mem_nil
  refine ⟨by simpa only [List.length_nil, Nat.zero_add] using hfound.length_le, ?_⟩
  intro t
  induction t using List.reverseRecOn with
  | nil => exact fun _ => hfound.meets _ (List.mem_singleton.mpr rfl)
  | append_singleton t x ih =>
    intro ht
    have hbefore := ih fun y hy => ht y (List.mem_append_left [x] hy)
    have hx : x ∈ alphabet ps := ht x (List.mem_append_right t (List.mem_singleton.mpr rfl))
    rw [placesAfter, List.foldl_concat]
    exact hfound.closed _ hbefore _ (List.mem_map_of_mem hx)

section

variable {c : Char} {k : Nat} {bits : List Bool}

theorem advance_any (hx : x ≠ '\n') (bit : Bool) (hbits : bits.length = k + 1) :
    advance x false bit (List.replicate k .any) bits = bit :: bits.dropLast := by
  induction k generalizing bit bits with
  | zero =>
    obtain ⟨other, rfl⟩ := List.length_eq_one_iff.mp hbits
    rfl
  | succ k ih =>
    obtain ⟨other, bits, rfl⟩ := List.exists_cons_of_length_eq_add_one hbits
    have hlength : bits.length = k + 1 := Nat.succ.inj hbits
    have hcons : bits ≠ [] := List.ne_nil_of_length_eq_add_one hlength
    rw [List.replicate_succ, advance, List.dropLast_cons_of_ne_nil hcons]
    have htakes : takes .any x = true := bne_iff_ne.mpr hx
    have hrun : (Piece.any == Piece.run) = false := rfl
    rw [htakes, hrun, Bool.or_false, Bool.true_and, Bool.false_and, Bool.false_and, Bool.or_false,
      ih other hlength]

/-- A character, and `k` more behind it to the end. -/
def lastBut (k : Nat) (c : Char) : List Piece := .run :: .char c :: List.replicate k .any

/-- Of each of the last characters it is remembered whether it was the one that is sought. -/
theorem advance_lastBut (hx : x ≠ '\n') (hbits : bits.length = k + 1) :
    advance x false false (lastBut k c) (true :: false :: bits) =
      true :: false :: (x == c) :: bits.dropLast := by
  have hplain : (x != '\n') = true := bne_iff_ne.mpr hx
  have hchar : (Piece.char c == Piece.run) = false := rfl
  have hrun : (Piece.run == Piece.run) = true := rfl
  rw [lastBut, advance, advance, hplain, hchar, hrun]
  simp only [takes, Bool.or_false, Bool.or_true, Bool.and_true]
  rw [advance_any hx _ hbits]

/-- What has been remembered is forgotten in its turn. -/
theorem take_append_cons_dropLast (l : List Bool) (bit : Bool) (hbits : bits.length = k + 1) :
    (l ++ bit :: bits.dropLast).take (k + 1) = (l ++ bit :: bits).take (k + 1) := by
  rw [List.take_append, List.take_append, List.dropLast_eq_take, hbits, Nat.add_sub_cancel]
  congr 1
  cases hm : k + 1 - l.length with
  | zero => rfl
  | succ m =>
    have hle : m ≤ k := by omega
    rw [List.take_succ_cons, List.take_succ_cons, List.take_take, Nat.min_eq_left hle]

variable {letter : Bool → Char}

theorem placesAfter_lastBut (hplain : ∀ bit, letter bit ≠ '\n')
    (hletter : ∀ bit, (letter bit == c) = bit) (word : List Bool) (hbits : bits.length = k + 1) :
    placesAfter (lastBut k c) (true :: false :: bits) (word.map letter) =
      true :: false :: (word.reverse ++ bits).take (k + 1) := by
  induction word generalizing bits with
  | nil => rw [List.reverse_nil, List.nil_append, ← hbits, List.take_length]; rfl
  | cons bit word ih =>
    have hlength : (bit :: bits.dropLast).length = k + 1 := by
      rw [List.length_cons, List.length_dropLast, hbits, Nat.add_sub_cancel]
    rw [List.map_cons, placesAfter, List.foldl_cons, advance_lastBut (hplain bit) hbits,
      hletter bit]
    refine (ih hlength).trans ?_
    rw [take_append_cons_dropLast _ _ hbits, List.reverse_cons, List.append_assoc]
    rfl

theorem letters_lastBut (k : Nat) (c : Char) : letters (lastBut k c) = [c] := by
  have hany : letters (List.replicate k .any) = [] := by
    rw [letters, List.filterMap_replicate_of_none rfl]
  exact congrArg (c :: ·) hany

theorem mem_alphabet_lastBut : x ∈ alphabet (lastBut k c) ↔
    x = stranger ['\n', c] ∨ x = '\n' ∨ x = c := by
  rw [alphabet, letters_lastBut, List.mem_eraseDups, List.mem_cons, List.mem_cons,
    List.mem_singleton]

theorem stranger_ne (c : Char) : stranger ['\n', c] ≠ '\n' ∧ stranger ['\n', c] ≠ c := by
  by_cases hc : c = Char.ofNat 0
  · subst hc
    decide
  · have hfirst : stranger ['\n', c] = Char.ofNat 0 := by
      have hnew : (!(['\n', c].contains (Char.ofNat 0))) = true := by simpa using Ne.symm hc
      rw [stranger, List.length_cons, List.length_singleton, List.range_succ_eq_map, List.map_cons,
        List.find?_cons_of_pos (p := fun x => !(['\n', c].contains x)) hnew, Option.getD_some]
    rw [hfirst]
    exact ⟨by decide, Ne.symm hc⟩

theorem start_lastBut (k : Nat) (c : Char) :
    start (lastBut k c) = true :: false :: List.replicate (k + 1) false := by
  simp only [start, lastBut, List.map_cons, List.map_replicate, List.replicate_succ]

/-- There is a letter for each of the two things to remember of a character. -/
theorem exists_letter (k : Nat) (hc : c ≠ '\n') : ∃ letter : Bool → Char, ∀ bit,
    letter bit ∈ alphabet (lastBut k c) ∧ letter bit ≠ '\n' ∧ (letter bit == c) = bit := by
  obtain ⟨hplain, hne⟩ := stranger_ne c
  refine ⟨fun bit => if bit then c else stranger ['\n', c], fun bit => ?_⟩
  cases bit with
  | true => exact ⟨mem_alphabet_lastBut.mpr (.inr (.inr rfl)), hc, beq_self_eq_true c⟩
  | false => exact ⟨mem_alphabet_lastBut.mpr (.inl rfl), hplain, beq_eq_false_iff_ne.mpr hne⟩

/-- The letters of the word are read from the last one that is remembered to the first. -/
theorem mem_of_states?_lastBut (hc : c ≠ '\n') {limit : Nat} {found : List Places}
    (h : states? limit (lastBut k c) = some found) (hbits : bits.length = k + 1) :
    true :: false :: bits ∈ found := by
  obtain ⟨letter, hletter⟩ := exists_letter k hc
  have hword := (states?_spec h).2 (bits.reverse.map letter) fun x hx => by
    obtain ⟨bit, -, rfl⟩ := List.mem_map.mp hx
    exact (hletter bit).1
  rw [start_lastBut, placesAfter_lastBut (fun bit => (hletter bit).2.1)
    (fun bit => (hletter bit).2.2) _ List.length_replicate, List.reverse_reverse] at hword
  rwa [List.take_append_of_le_length (Nat.le_of_eq hbits.symm),
    List.take_of_length_le (Nat.le_of_eq hbits)] at hword

theorem two_pow_le_length {found : List Places}
    (h : ∀ bits : List Bool, bits.length = k + 1 → true :: false :: bits ∈ found) :
    2 ^ (k + 1) ≤ found.length := by
  have hmem (bits : List.Vector Bool (k + 1)) : true :: false :: bits.toList ∈ found :=
    h bits.toList bits.toList_length
  have hcard := Finset.card_le_card_of_injOn (s := Finset.univ) (t := found.toFinset)
    (fun bits : List.Vector Bool (k + 1) => true :: false :: bits.toList)
    (fun bits _ => List.mem_toFinset.mpr (hmem bits)) (by
      intro a _ b _ hab
      exact List.Vector.toList_injective (List.cons.inj (List.cons.inj hab).2).2)
  rw [Finset.card_univ, card_vector, Fintype.card_bool] at hcard
  exact hcard.trans (List.toFinset_card_le found)

/-- An expression for a character that has `k` more behind it has a state for each way in which the
last `k + 1` characters can be that one or another. -/
theorem states?_lastBut_eq_none (hc : c ≠ '\n') {limit : Nat} (h : limit < 2 ^ (k + 1)) :
    states? limit (lastBut k c) = none := by
  cases hfound : states? limit (lastBut k c) with
  | none => rfl
  | some found =>
    have hmany : 2 ^ (k + 1) ≤ found.length :=
      two_pow_le_length fun _ hbits => mem_of_states?_lastBut hc hfound hbits
    exact absurd ((states?_spec hfound).1.trans_lt h) (Nat.not_lt_of_le hmany)

theorem refusal?_of_lastBut {regex : List Char} (hread : read? regex = some (lastBut k c))
    (hc : c ≠ '\n') {limit : Nat} (h : limit < 2 ^ (k + 1)) :
    (RegexBuilder.ofStateLimit limit).refusal? regex = some "too many states" := by
  dsimp only [RegexBuilder.refusal?]
  rw [hread]
  dsimp only
  rw [states?_lastBut_eq_none hc h]
  rfl

end

end ResourceIndex.Query.Regex
