import ResourceIndex.Json.Printer
import ResourceIndex.Proofs.Text.Digits
/-
The text of a value stands on one line: whatever its strings hold, no control character is left in
it, and so no line feed.
-/
namespace ResourceIndex

namespace Text

/-- None of the characters is a control character. -/
def FreeOfControls (s : List Char) : Prop := ∀ c ∈ s, 32 ≤ c.toNat

namespace FreeOfControls

variable {c : Char} {s t : List Char}

theorem nil : FreeOfControls [] := List.forall_mem_nil _

theorem cons (hc : 32 ≤ c.toNat) (hs : FreeOfControls s) : FreeOfControls (c :: s) :=
  List.forall_mem_cons.mpr ⟨hc, hs⟩

theorem append (hs : FreeOfControls s) (ht : FreeOfControls t) : FreeOfControls (s ++ t) :=
  List.forall_mem_append.mpr ⟨hs, ht⟩

theorem of_all_isDigit (h : ∀ c ∈ s, c.isDigit = true) : FreeOfControls s := by
  intro c hc
  have hdigit := h c hc
  simp only [Char.isDigit, Bool.and_eq_true, decide_eq_true_eq] at hdigit
  have hlow : (48 : UInt32).toNat ≤ c.toNat := hdigit.1
  exact Nat.le_trans (by decide) hlow

theorem natText (n : Nat) : FreeOfControls (natText n) :=
  of_all_isDigit fun _ hc => isDigit_of_mem_natText hc

theorem of_all (h : (s.all fun c => decide (32 ≤ c.toNat)) = true) : FreeOfControls s :=
  fun c hc => of_decide_eq_true (List.all_eq_true.mp h c hc)

theorem notMem (h : FreeOfControls s) (hc : c.toNat < 32) : c ∉ s := fun hm =>
  absurd (h c hm) (Nat.not_le.mpr hc)

end FreeOfControls

end Text

open Text

/-- However the digits of a number are laid out. -/
theorem Binary64.freeOfControls_layout {digits : List Char} (h : FreeOfControls digits) (t : Int) :
    FreeOfControls (layout digits t) := by
  have hzeros : ∀ k, FreeOfControls (List.replicate k '0') := fun k c hc => by
    rw [List.eq_of_mem_replicate hc]
    decide
  have hpoint : ∀ s, FreeOfControls s → FreeOfControls ('.' :: s) := fun s => .cons (by decide)
  have htake : ∀ k, FreeOfControls (digits.take k) := fun k c hc => h c (List.mem_of_mem_take hc)
  have hdrop : ∀ k, FreeOfControls (digits.drop k) := fun k c hc => h c (List.mem_of_mem_drop hc)
  simp only [layout]
  split
  · refine (((htake 1).append ?_).append (.cons (by decide) .nil)).append ?_ |>.append (.natText _)
    · split
      · exact .nil
      · exact hpoint _ (hdrop 1)
    · split
      · exact .cons (by decide) .nil
      · exact .cons (by decide) .nil
  split
  · exact .append (.append (.cons (by decide) (hpoint _ .nil)) (hzeros _)) h
  split
  · exact .append (h.append (hzeros _)) (hpoint _ (hzeros 1))
  · exact .append ((htake _).append (hpoint _ .nil)) (hdrop _)

theorem Binary64.freeOfControls_text (x : Binary64) : FreeOfControls x.text := by
  have hsign : FreeOfControls (if x.isNegative = true then ['-'] else []) := by
    split
    · exact .cons (by decide) .nil
    · exact .nil
  simp only [text]
  split
  · exact hsign.append (.of_all rfl)
  · exact hsign.append (freeOfControls_layout (.natText _) _)

namespace Json

/-- What stands for a control character is made of others. -/
theorem freeOfControls_escaped (c : Char) : FreeOfControls (escaped c) := by
  have hshort : ∀ x : Char, 32 ≤ x.toNat → FreeOfControls ['\\', x] := fun x hx =>
    .cons (by decide) (.cons hx .nil)
  have hdigit : ∀ d < 16, 32 ≤ (Nat.digitChar d).toNat := by decide
  rw [escaped]
  iterate 7
    split
    · exact hshort _ (by decide)
  split
  · refine .append (hshort 'u' (by decide)) (.cons (by decide) (.cons (by decide) ?_))
    exact .cons (hdigit _ (by omega)) (.cons (hdigit _ (by omega)) .nil)
  · exact .cons (Nat.not_lt.mp ‹¬ c.toNat < 32›) .nil

theorem freeOfControls_quoted (s : List Char) : FreeOfControls (quoted s) := by
  have hbody : FreeOfControls (s.flatMap escaped) := by
    intro c hc
    obtain ⟨x, -, hx⟩ := List.mem_flatMap.mp hc
    exact freeOfControls_escaped x c hx
  exact .append (.cons (by decide) hbody) (.cons (by decide) .nil)

theorem freeOfControls_intText (n : Int) : FreeOfControls (intText n) := by
  rw [intText]
  split
  · exact .append (.cons (by decide) .nil) (.natText _)
  · exact .append .nil (.natText _)

theorem freeOfControls_member (name : String) {v : Json} (h : FreeOfControls v.render) :
    FreeOfControls (quoted name.toList ++ ':' :: v.render) :=
  .append (freeOfControls_quoted _) (.cons (by decide) h)

mutual

theorem freeOfControls_render (v : Json) : FreeOfControls v.render := by
  cases v with
  | null => exact .of_all rfl
  | bool b =>
    cases b with
    | true => exact .of_all rfl
    | false => exact .of_all rfl
  | int n => exact freeOfControls_intText n
  | float x =>
    rw [render]
    split
    · exact x.freeOfControls_text
    · exact .of_all rfl
  | str s => exact freeOfControls_quoted s.toList
  | arr vs =>
    cases vs with
    | nil => exact .of_all rfl
    | cons v vs =>
      exact .append (.cons (by decide) (freeOfControls_render v)) (freeOfControls_renderRest vs)
  | obj ms =>
    cases ms with
    | nil => exact .of_all rfl
    | cons m ms =>
      obtain ⟨n, v⟩ := m
      exact .append (.cons (by decide) (freeOfControls_member n (freeOfControls_render v)))
        (freeOfControls_renderMembers ms)

theorem freeOfControls_renderRest (vs : List Json) : FreeOfControls (renderRest vs) := by
  cases vs with
  | nil => exact .cons (by decide) .nil
  | cons v vs =>
    exact .append (.cons (by decide) (freeOfControls_render v)) (freeOfControls_renderRest vs)

theorem freeOfControls_renderMembers (ms : Members) : FreeOfControls (renderMembers ms) := by
  cases ms with
  | nil => exact .cons (by decide) .nil
  | cons m ms =>
    obtain ⟨n, v⟩ := m
    exact .append (.cons (by decide) (freeOfControls_member n (freeOfControls_render v)))
      (freeOfControls_renderMembers ms)

end

theorem newline_notMem_render (v : Json) : '\n' ∉ v.render :=
  v.freeOfControls_render.notMem (by decide)

end Json

end ResourceIndex
