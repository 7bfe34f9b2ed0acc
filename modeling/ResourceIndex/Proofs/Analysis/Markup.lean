import ResourceIndex.Analysis.Snippet
/-
Marked fragments. Every cut that a rendering takes lies between characters of its fragment, the
ranges are chosen from left to right, and between the tags stands the fragment as it was.
-/
namespace ResourceIndex

namespace Text

variable {s t r before rest : List Char} {n : Nat}

theorem byteLength_append (s t : List Char) :
    byteLength (s ++ t) = byteLength s + byteLength t := by
  induction s with
  | nil => exact (Nat.zero_add _).symm
  | cons c s ih => rw [List.cons_append, byteLength, byteLength, ih, Nat.add_assoc]

theorem byteLength_eq_zero_iff : byteLength s = 0 ↔ s = [] := by
  cases s with
  | nil => exact iff_of_true rfl rfl
  | cons c s =>
    have hc := c.utf8Size_pos
    rw [byteLength]
    exact iff_of_false (by omega) (List.cons_ne_nil c s)

/-- The first bytes of a text and what follows them; none when they end beyond the text or inside
a character. -/
def cutBytes? : Nat → List Char → Option (List Char × List Char)
  | 0, s => some ([], s)
  | _ + 1, [] => none
  | n + 1, c :: s =>
    if n + 1 < c.utf8Size then none
    else (cutBytes? (n + 1 - c.utf8Size) s).map fun p => (c :: p.1, p.2)

theorem cutBytes?_byteLength_append (t r : List Char) :
    cutBytes? (byteLength t) (t ++ r) = some (t, r) := by
  induction t with
  | nil => rw [byteLength, List.nil_append, cutBytes?]
  | cons c t ih =>
    obtain ⟨k, hk⟩ := Nat.exists_eq_succ_of_ne_zero (Nat.ne_of_gt c.utf8Size_pos)
    have hn : byteLength (c :: t) = byteLength t + k + 1 := by rw [byteLength, hk]; omega
    have hrest : byteLength t + k + 1 - c.utf8Size = byteLength t := by omega
    rw [hn, List.cons_append, cutBytes?, if_neg (by omega), hrest, ih]
    rfl

theorem eq_append_of_cutBytes? (h : cutBytes? n s = some (t, r)) :
    s = t ++ r ∧ byteLength t = n := by
  induction s generalizing n t with
  | nil =>
    cases n with
    | zero => cases h; exact ⟨rfl, rfl⟩
    | succ n => cases h
  | cons c s ih =>
    cases n with
    | zero => cases h; exact ⟨rfl, rfl⟩
    | succ n =>
      rw [cutBytes?] at h
      split at h
      · cases h
      · obtain ⟨⟨u, v⟩, hcut, heq⟩ := Option.map_eq_some_iff.mp h
        cases heq
        obtain ⟨rfl, hlength⟩ := ih hcut
        refine ⟨rfl, ?_⟩
        rw [byteLength, hlength]
        omega

/-- No character reaches over the byte, which lies inside the text or at one of its ends. -/
def IsBoundary (s : List Char) (n : Nat) : Prop := (cutBytes? n s).isSome = true

instance (s : List Char) (n : Nat) : Decidable (IsBoundary s n) :=
  inferInstanceAs (Decidable ((cutBytes? n s).isSome = true))

/-- A boundary behind some part of a text divides what follows this part. -/
theorem IsBoundary.exists_eq_append (h : IsBoundary (before ++ rest) n)
    (hn : byteLength before ≤ n) : ∃ t r, rest = t ++ r ∧ byteLength before + byteLength t = n := by
  obtain ⟨⟨front, back⟩, hcut⟩ := Option.isSome_iff_exists.mp h
  obtain ⟨happend, rfl⟩ := eq_append_of_cutBytes? hcut
  rcases List.append_eq_append_iff.mp happend with ⟨t, rfl, hrest⟩ | ⟨t, rfl, hback⟩
  · exact ⟨t, back, hrest, (byteLength_append before t).symm⟩
  · rw [byteLength_append] at hn
    obtain rfl := byteLength_eq_zero_iff.mp (show byteLength t = 0 by omega)
    exact ⟨[], rest, rfl, by rw [List.append_nil]; rfl⟩

end Text

namespace Analysis.Snippet

open Text

variable {fragment before rest : List Char} {ranges : List ByteRange} {r : ByteRange} {cursor : Nat}

/-- The text between two bytes; none unless both are boundaries, the first not behind the second. -/
def slice? (s : List Char) (start stop : Nat) : Option (List Char) :=
  if start ≤ stop then do
    let (_, rest) ← cutBytes? start s
    let (t, _) ← cutBytes? (stop - start) rest
    return t
  else none

/-- The rendering that comes to nothing at the first cut that is out of bounds. -/
def renderFrom? (fragment : List Char) (cursor : Nat) : List ByteRange → Option (List Char)
  | [] => slice? fragment cursor (byteLength fragment)
  | r :: rs =>
    if r.start < cursor ∨ byteLength fragment < r.stop then renderFrom? fragment cursor rs
    else do
      let plain ← slice? fragment cursor r.start
      let marked ← slice? fragment r.start r.stop
      return plain ++ openTag ++ marked ++ closeTag ++ (← renderFrom? fragment r.stop rs)

def render? (s : Snippet) : Option (List Char) :=
  if s.ranges.isEmpty then some [] else renderFrom? s.fragment 0 s.ranges

theorem go_skip (t rest : List Char) {byte start stop : Nat} (hstart : byte + byteLength t = start)
    (hstop : start ≤ stop) :
    slice.go start stop byte (t ++ rest) = slice.go start stop start rest := by
  induction t generalizing byte with
  | nil =>
    rw [byteLength] at hstart
    rw [← hstart]
    rfl
  | cons c t ih =>
    have hc := c.utf8Size_pos
    rw [byteLength] at hstart
    rw [List.cons_append, slice.go, if_neg (by omega), if_pos (by omega)]
    exact ih (by omega)

theorem go_take (t rest : List Char) {byte start stop : Nat} (hstart : start ≤ byte)
    (hstop : byte + byteLength t = stop) : slice.go start stop byte (t ++ rest) = t := by
  induction t generalizing byte with
  | nil =>
    rw [byteLength] at hstop
    cases rest with
    | nil => rfl
    | cons c rest => rw [List.nil_append, slice.go, if_pos (by omega)]
  | cons c t ih =>
    have hc := c.utf8Size_pos
    rw [byteLength] at hstop
    rw [List.cons_append, slice.go, if_neg (by omega), if_neg (by omega), ih (by omega) (by omega)]

theorem slice_append (before t behind : List Char) :
    slice (before ++ (t ++ behind)) (byteLength before) (byteLength before + byteLength t) = t := by
  rw [slice, go_skip before (t ++ behind) (Nat.zero_add _) (Nat.le_add_right _ _)]
  exact go_take t behind (Nat.le_refl _) rfl

theorem slice?_append (before t behind : List Char) :
    slice? (before ++ (t ++ behind)) (byteLength before) (byteLength before + byteLength t) =
      some t := by
  rw [slice?, if_pos (Nat.le_add_right _ _), cutBytes?_byteLength_append, Nat.add_sub_cancel_left]
  simp only [Option.bind_eq_bind, Option.bind_some, cutBytes?_byteLength_append]
  rfl

/-- A piece of a marked text. -/
inductive Markup where
  | text (s : List Char) : Markup
  | opening : Markup
  | closing : Markup
deriving DecidableEq, Repr

namespace Markup

def written : Markup → List Char
  | text s => s
  | opening => openTag
  | closing => closeTag

/-- What is left without the tags. -/
def content : Markup → List Char
  | text s => s
  | opening | closing => []

/-- From inside a mark or from outside of one, the tags open and close by turns, and none is left
open. -/
def Paired (inside : Bool) : List Markup → Prop
  | [] => inside = false
  | text _ :: ms => Paired inside ms
  | opening :: ms => inside = false ∧ Paired true ms
  | closing :: ms => inside = true ∧ Paired false ms

/-- The ranges of the content that stand between tags, behind some bytes and with a tag that opened
at a byte. -/
def marks (byte opened : Nat) : List Markup → List ByteRange
  | [] => []
  | text s :: ms => marks (byte + byteLength s) opened ms
  | opening :: ms => marks byte byte ms
  | closing :: ms => ⟨opened, byte⟩ :: marks byte opened ms

/-- The pieces make up a text without tags in it and a written text with tags around some ranges of
it, which are counted behind `byte` bytes. -/
structure Describes (ms : List Markup) (byte : Nat) (plain written : List Char)
    (ranges : List ByteRange) : Prop where
  content : ms.flatMap content = plain
  written : ms.flatMap Markup.written = written
  paired : Paired false ms
  marks : ∀ opened, marks byte opened ms = ranges

theorem describes_text (byte : Nat) (s : List Char) : Describes [text s] byte s s [] :=
  ⟨List.append_nil s, List.append_nil s, rfl, fun _ => rfl⟩

theorem Describes.cons_mark {ms : List Markup} {byte : Nat} {behind out before marked : List Char}
    {ranges : List ByteRange}
    (h : Describes ms (byte + byteLength before + byteLength marked) behind out ranges) :
    Describes (text before :: opening :: text marked :: closing :: ms) byte
      (before ++ (marked ++ behind)) (before ++ openTag ++ marked ++ closeTag ++ out)
      (⟨byte + byteLength before, byte + byteLength before + byteLength marked⟩ :: ranges) := by
  refine ⟨?_, ?_, ⟨rfl, rfl, h.paired⟩, fun _ => congrArg (List.cons _) (h.marks _)⟩
  · simp only [List.flatMap_cons, Markup.content, h.content, List.nil_append]
  · simp only [List.flatMap_cons, Markup.written, h.written, List.append_assoc]

end Markup

/-- From left to right, the ranges that begin behind the last one chosen and end within the
limit. -/
def chosen (limit last : Nat) : List ByteRange → List ByteRange
  | [] => []
  | r :: rs =>
    if last ≤ r.start ∧ r.stop ≤ limit then r :: chosen limit r.stop rs else chosen limit last rs

/-- A range in its order, with both ends at boundaries unless it reaches beyond the text. -/
def Fits (s : List Char) (r : ByteRange) : Prop :=
  r.start ≤ r.stop ∧ (r.stop ≤ byteLength s → IsBoundary s r.start ∧ IsBoundary s r.stop)

instance (s : List Char) (r : ByteRange) : Decidable (Fits s r) :=
  inferInstanceAs (Decidable (_ ∧ _))

/-- A range that is chosen divides what follows the last mark. -/
theorem Fits.exists_eq_append (h : Fits (before ++ rest) r) (hstart : byteLength before ≤ r.start)
    (hstop : r.stop ≤ byteLength (before ++ rest)) :
    ∃ plain marked behind, rest = plain ++ (marked ++ behind) ∧
      r = ⟨byteLength before + byteLength plain,
        byteLength before + byteLength plain + byteLength marked⟩ := by
  obtain ⟨horder, hbounds⟩ := h
  obtain ⟨hfirst, hsecond⟩ := hbounds hstop
  obtain ⟨plain, tail, rfl, hplain⟩ := hfirst.exists_eq_append hstart
  rw [← List.append_assoc] at hsecond
  obtain ⟨marked, behind, rfl, hmarked⟩ :=
    hsecond.exists_eq_append (by rw [byteLength_append]; omega)
  rw [byteLength_append] at hmarked
  refine ⟨plain, marked, behind, rfl, ?_⟩
  rw [hmarked, hplain]

/-- Behind the last mark, each cut is in bounds, and the chosen ranges of the rest are marked. -/
theorem exists_describes (before rest : List Char)
    (hranges : ∀ r ∈ ranges, Fits (before ++ rest) r) :
    renderFrom? (before ++ rest) (byteLength before) ranges =
      some (renderFrom (before ++ rest) (byteLength before) ranges) ∧
    ∃ ms, Markup.Describes ms (byteLength before) rest
      (renderFrom (before ++ rest) (byteLength before) ranges)
      (chosen (byteLength (before ++ rest)) (byteLength before) ranges) := by
  induction ranges generalizing before rest with
  | nil =>
    have hcut := slice_append before rest []
    have hcut? := slice?_append before rest []
    rw [List.append_nil, ← byteLength_append] at hcut hcut?
    rw [renderFrom?, renderFrom, hcut, hcut?]
    exact ⟨rfl, [.text rest], Markup.describes_text _ rest⟩
  | cons r ranges ih =>
    obtain ⟨hr, hrest⟩ := List.forall_mem_cons.mp hranges
    by_cases hskip : r.start < byteLength before ∨ byteLength (before ++ rest) < r.stop
    · have hnot : ¬ (byteLength before ≤ r.start ∧ r.stop ≤ byteLength (before ++ rest)) := by omega
      rw [renderFrom?, renderFrom, chosen, if_pos hskip, if_pos hskip, if_neg hnot]
      exact ih before rest hrest
    · have htake : byteLength before ≤ r.start ∧ r.stop ≤ byteLength (before ++ rest) := by omega
      rw [renderFrom?, renderFrom, chosen, if_neg hskip, if_neg hskip, if_pos htake]
      obtain ⟨plain, marked, behind, rfl, rfl⟩ := hr.exists_eq_append htake.1 htake.2
      have hplain := slice_append before plain (marked ++ behind)
      have hplain? := slice?_append before plain (marked ++ behind)
      have hmarked := slice_append (before ++ plain) marked behind
      have hmarked? := slice?_append (before ++ plain) marked behind
      have hmove : before ++ (plain ++ (marked ++ behind)) =
          (before ++ plain ++ marked) ++ behind := by
        simp only [List.append_assoc]
      have hend : byteLength before + byteLength plain + byteLength marked =
          byteLength (before ++ plain ++ marked) := by simp only [byteLength_append]
      obtain ⟨hall, ms, hms⟩ := ih (before ++ plain ++ marked) behind (by rwa [← hmove])
      rw [List.append_assoc, byteLength_append] at hmarked hmarked?
      rw [← hmove, ← hend] at hall hms
      rw [hplain, hplain?, hmarked, hmarked?, hall]
      exact ⟨rfl, _, hms.cons_mark⟩

/-- Every cut that a rendering takes is in bounds; without a range nothing is shown, and otherwise
the fragment with tags around the chosen ranges. -/
theorem rendered_text_marks_chosen (s : Snippet) (h : ∀ r ∈ s.ranges, Fits s.fragment r) :
    s.render? = some s.render ∧ (s.ranges = [] → s.render = []) ∧
    (s.ranges ≠ [] → ∃ ms, Markup.Describes ms 0 s.fragment s.render
      (chosen (byteLength s.fragment) 0 s.ranges)) := by
  obtain ⟨fragment, ranges⟩ := s
  cases ranges with
  | nil => exact ⟨rfl, fun _ => rfl, fun hne => absurd rfl hne⟩
  | cons r ranges =>
    obtain ⟨hcuts, hmarks⟩ := exists_describes [] fragment h
    exact ⟨hcuts, nofun, fun _ => hmarks⟩

/-- Ranges out of order, one over another, beyond the end and around a letter of two bytes, in a
fragment that holds a tag itself. -/
theorem rendered_text_marks_chosen_of_mixed :
    let s : Snippet :=
      ⟨"aé</mark>bc".toList, [⟨1, 3⟩, ⟨0, 10⟩, ⟨11, 20⟩, ⟨10, 11⟩, ⟨3, 3⟩, ⟨12, 12⟩]⟩
    (∀ r ∈ s.ranges, Fits s.fragment r) ∧ s.render? = some s.render ∧
    (s.ranges = [] → s.render = []) ∧
    (s.ranges ≠ [] → ∃ ms, Markup.Describes ms 0 s.fragment s.render
      (chosen (byteLength s.fragment) 0 s.ranges)) := by
  intro s
  have hfits : ∀ r ∈ s.ranges, Fits s.fragment r := by decide
  exact ⟨hfits, rendered_text_marks_chosen s hfits⟩

end Analysis.Snippet
end ResourceIndex
