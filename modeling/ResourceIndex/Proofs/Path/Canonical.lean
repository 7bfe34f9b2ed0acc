import Mathlib.Data.List.Basic
import ResourceIndex.Path
import ResourceIndex.Proofs.Text.Cut
/-
Canonical paths are lists of segments. What lies below a canonical path, and what becomes of it
when that path is exchanged, can be read off the segments.
-/
namespace ResourceIndex.Path

/-- What can stand between two slashes of a canonical path. -/
structure IsSegment (g : List Char) : Prop where
  ne_nil : g ≠ []
  ne_dot : g ≠ ['.']
  ne_dots : g ≠ ['.', '.']
  no_slash : '/' ∉ g

theorem step_isSegment {done : List (List Char)} {g : List Char} (hg : '/' ∉ g)
    (h : ∀ x ∈ done, IsSegment x) : ∀ x ∈ step done g, IsSegment x := by
  intro x hx
  unfold step at hx
  split at hx
  · exact h x hx
  · rename_i hdot
    obtain ⟨hnil, hdot⟩ := not_or.mp hdot
    split at hx
    · exact h x (List.dropLast_subset done hx)
    · rename_i hdots
      rcases List.mem_append.mp hx with hx | hx
      · exact h x hx
      · cases List.mem_singleton.mp hx
        exact ⟨hnil, hdot, hdots, hg⟩

theorem foldl_step_isSegment {gs done : List (List Char)} (hg : ∀ g ∈ gs, '/' ∉ g)
    (h : ∀ x ∈ done, IsSegment x) : ∀ x ∈ gs.foldl step done, IsSegment x := by
  induction gs generalizing done with
  | nil => exact h
  | cons g gs ih =>
    obtain ⟨hh, ht⟩ := List.forall_mem_cons.mp hg
    exact ih ht (step_isSegment hh h)

theorem segments_isSegment (s : List Char) : ∀ g ∈ segments s, IsSegment g :=
  foldl_step_isSegment (fun _ hg => Text.notMem_of_mem_splitOn hg) fun _ hx => nomatch hx

theorem step_of_isSegment (done : List (List Char)) {g : List Char} (h : IsSegment g) :
    step done g = done ++ [g] := by
  rw [step, if_neg (not_or.mpr ⟨h.ne_nil, h.ne_dot⟩), if_neg h.ne_dots]

theorem foldl_step_of_isSegment {gs : List (List Char)} (h : ∀ g ∈ gs, IsSegment g)
    (done : List (List Char)) : gs.foldl step done = done ++ gs := by
  induction gs generalizing done with
  | nil => exact (List.append_nil done).symm
  | cons g gs ih =>
    obtain ⟨hg, ht⟩ := List.forall_mem_cons.mp h
    rw [List.foldl_cons, step_of_isSegment done hg, ih ht, List.append_assoc, List.singleton_append]

theorem render_eq_lead (gs : List (List Char)) : render gs = '.' :: Text.lead '/' gs := by
  cases gs with
  | nil => rfl
  | cons g gs => rw [Text.lead_eq_join]; rfl

theorem splitOn_lead {gs : List (List Char)} (h : ∀ g ∈ gs, IsSegment g) :
    Text.splitOn '/' ('.' :: Text.lead '/' gs) = ['.'] :: gs := by
  have hdot : '/' ∉ ['.'] := by decide
  have hsplit := Text.splitOn_append_lead hdot fun g hg => (h g hg).no_slash
  rwa [List.singleton_append] at hsplit

theorem segments_lead {gs : List (List Char)} (h : ∀ g ∈ gs, IsSegment g) :
    segments ('.' :: Text.lead '/' gs) = gs := by
  rw [segments, splitOn_lead h, resolve, List.foldl_cons]
  exact foldl_step_of_isSegment h []

/-- The canonical path with the given segments. -/
def ofSegments (gs : List (List Char)) : String := String.ofList ('.' :: Text.lead '/' gs)

theorem toList_ofSegments (gs : List (List Char)) :
    (ofSegments gs).toList = '.' :: Text.lead '/' gs := String.toList_ofList

theorem normalize_eq_ofSegments (path : String) :
    normalize path = ofSegments (segments path.toList) := by
  rw [normalize, render_eq_lead]
  rfl

theorem normalize_ofSegments {gs : List (List Char)} (h : ∀ g ∈ gs, IsSegment g) :
    normalize (ofSegments gs) = ofSegments gs := by
  rw [normalize_eq_ofSegments, toList_ofSegments, segments_lead h]

@[simp] theorem normalize_normalize (path : String) :
    normalize (normalize path) = normalize path := by
  rw [normalize_eq_ofSegments path]
  exact normalize_ofSegments (segments_isSegment _)

/-- A path is canonical exactly if it is spelled from segments. -/
theorem normalize_eq_self_iff {path : String} :
    normalize path = path ↔ ∃ gs, (∀ g ∈ gs, IsSegment g) ∧ path = ofSegments gs := by
  constructor
  · exact fun h => ⟨segments path.toList, segments_isSegment _, by rw [← normalize_eq_ofSegments, h]⟩
  · rintro ⟨gs, hgs, rfl⟩
    exact normalize_ofSegments hgs

theorem dropFinal_lead {gs : List (List Char)} (h : ∀ g ∈ gs, IsSegment g) :
    Text.dropFinal '/' ('.' :: Text.lead '/' gs) = '.' :: Text.lead '/' gs := by
  have hdot : ['.'].getLast? ≠ some '/' := by decide
  exact Text.dropFinal_of_getLast?_ne
    (Text.getLast?_append_lead_ne hdot fun g hg => ⟨(h g hg).ne_nil, (h g hg).no_slash⟩)

theorem isWithin_ofSegments_iff_led {gs ps : List (List Char)} (hg : ∀ g ∈ gs, IsSegment g)
    (hp : ∀ g ∈ ps, IsSegment g) :
    isWithin (ofSegments gs) (ofSegments ps) = true ↔
      ∃ rest, Text.Led '/' rest ∧ Text.lead '/' gs = Text.lead '/' ps ++ rest := by
  simp only [isWithin, toList_ofSegments, dropFinal_lead hg, dropFinal_lead hp, Bool.or_eq_true,
    decide_eq_true_eq, List.cons.injEq, true_and, reduceCtorEq, false_or]
  constructor
  · rintro ((hroot | hsame) | hbelow)
    · exact ⟨Text.lead '/' gs, Text.led_lead '/' gs, by rw [hroot, List.nil_append]⟩
    · exact ⟨[], .inl rfl, by rw [hsame, List.append_nil]⟩
    · split at hbelow
      · rename_i t ht
        have happ := List.isPrefixOf?_eq_some_iff_append_eq.mp ht
        exact ⟨'/' :: t, .inr ⟨t, rfl⟩, (List.cons.inj happ).2.symm⟩
      · cases hbelow
  · rintro ⟨rest, rfl | ⟨t, rfl⟩, h⟩
    · exact .inl (.inr (by rw [h, List.append_nil]))
    · right
      rw [h, ← List.cons_append, List.isPrefixOf?_eq_some_iff_append_eq.mpr rfl]
      rfl

/-- A canonical path lies within another exactly if it begins with the segments of the other. -/
theorem isWithin_ofSegments {gs ps : List (List Char)} (hg : ∀ g ∈ gs, IsSegment g)
    (hp : ∀ g ∈ ps, IsSegment g) :
    isWithin (ofSegments gs) (ofSegments ps) = true ↔ ps <+: gs := by
  rw [isWithin_ofSegments_iff_led hg hp]
  constructor
  · rintro ⟨rest, hr, h⟩
    exact Text.prefix_of_lead_append (fun g hm => (hp g hm).no_slash)
      (fun g hm => (hg g hm).no_slash) hr h
  · rintro ⟨rs, rfl⟩
    exact ⟨Text.lead '/' rs, Text.led_lead '/' rs, Text.lead_append '/' ps rs⟩

/-- A canonical path strictly below another goes on with a slash. -/
theorem isWithin_and_ne_iff {path scope : String} (hpath : normalize path = path)
    (hscope : normalize scope = scope) :
    isWithin path scope = true ∧ path ≠ scope ↔
      ∃ u, path.toList = scope.toList ++ '/' :: u := by
  obtain ⟨gs, hgs, rfl⟩ := normalize_eq_self_iff.mp hpath
  obtain ⟨ps, hps, rfl⟩ := normalize_eq_self_iff.mp hscope
  rw [isWithin_ofSegments_iff_led hgs hps, toList_ofSegments, toList_ofSegments]
  constructor
  · rintro ⟨⟨rest, rfl | ⟨t, rfl⟩, h⟩, hne⟩
    · rw [List.append_nil] at h
      exact absurd (by rw [ofSegments, ofSegments, h]) hne
    · exact ⟨t, by rw [h, List.cons_append]⟩
  · rintro ⟨u, hu⟩
    rw [List.cons_append, List.cons.injEq] at hu
    refine ⟨⟨'/' :: u, .inr ⟨u, rfl⟩, hu.2⟩, ?_⟩
    intro heq
    have hlen := congrArg (fun path => path.toList.length) heq
    simp only [toList_ofSegments, hu.2, List.length_cons, List.length_append] at hlen
    omega

theorem isWithin_self {path : String} (hpath : normalize path = path) :
    isWithin path path = true := by
  obtain ⟨gs, hgs, rfl⟩ := normalize_eq_self_iff.mp hpath
  exact (isWithin_ofSegments hgs hgs).mpr (List.prefix_refl gs)

theorem normalize_root : normalize root = root := by decide

theorem isWithin_root (path : String) : isWithin path root = true := by
  have hdot : Text.dropFinal '/' root.toList = ['.'] := by decide
  simp only [isWithin, hdot, decide_true, Bool.or_true, Bool.true_or]

theorem isWithin_iff {path scope : String} (hpath : normalize path = path)
    (hscope : normalize scope = scope) :
    isWithin path scope = true ↔
      path = scope ∨ ∃ u, path.toList = scope.toList ++ '/' :: u := by
  rw [← isWithin_and_ne_iff hpath hscope]
  constructor
  · intro hwithin
    by_cases hsame : path = scope
    · exact .inl hsame
    · exact .inr ⟨hwithin, hsame⟩
  · rintro (rfl | ⟨hwithin, -⟩)
    · exact isWithin_self hpath
    · exact hwithin

/-- Of two canonical paths that a path lies within, one lies within the other. -/
theorem isWithin_or_isWithin {path p q : String} (hpath : normalize path = path)
    (hp : normalize p = p) (hq : normalize q = q) (hwithin : isWithin path p = true)
    (hwithin' : isWithin path q = true) : isWithin p q = true ∨ isWithin q p = true := by
  obtain ⟨gs, hgs, rfl⟩ := normalize_eq_self_iff.mp hpath
  obtain ⟨ps, hps, rfl⟩ := normalize_eq_self_iff.mp hp
  obtain ⟨qs, hqs, rfl⟩ := normalize_eq_self_iff.mp hq
  rw [isWithin_ofSegments hgs hps] at hwithin
  rw [isWithin_ofSegments hgs hqs] at hwithin'
  rw [isWithin_ofSegments hps hqs, isWithin_ofSegments hqs hps]
  exact List.prefix_or_prefix_of_prefix hwithin' hwithin

theorem ofSegments_append (gs cs : List (List Char)) :
    ofSegments gs ++ String.ofList (Text.lead '/' cs) = ofSegments (gs ++ cs) := by
  rw [ofSegments, ofSegments, ← String.ofList_append, Text.lead_append, List.cons_append]

/-- A canonical path below another goes on with segments of its own. -/
theorem exists_segments_of_append {path old : String} {rest : List Char}
    (hpath : normalize path = path) (hold : normalize old = old)
    (h : path.toList = old.toList ++ '/' :: rest) :
    ∃ cs, (∀ g ∈ cs, IsSegment g) ∧ '/' :: rest = Text.lead '/' cs ∧
      path = ofSegments (segments old.toList ++ cs) := by
  obtain ⟨ps, hps, rfl⟩ := normalize_eq_self_iff.mp hpath
  obtain ⟨gs, hgs, rfl⟩ := normalize_eq_self_iff.mp hold
  rw [toList_ofSegments, toList_ofSegments, List.cons_append, List.cons.injEq] at h
  have hprefix : gs <+: ps := Text.prefix_of_lead_append (fun g hm => (hgs g hm).no_slash)
    (fun g hm => (hps g hm).no_slash) (.inr ⟨rest, rfl⟩) h.2
  obtain ⟨cs, rfl⟩ := hprefix
  rw [Text.lead_append, List.append_cancel_left_eq] at h
  refine ⟨cs, fun g hm => hps g (List.mem_append_right gs hm), h.2.symm, ?_⟩
  rw [toList_ofSegments, segments_lead hgs]

theorem rebase?_of_append {path old : String} {rest : List Char} (new : String)
    (h : path.toList = old.toList ++ '/' :: rest) :
    rebase? path old new = some (new ++ String.ofList ('/' :: rest)) := by
  have hne : path ≠ old := by
    rintro rfl
    have hlen := congrArg List.length h
    simp only [List.length_append, List.length_cons] at hlen
    omega
  rw [rebase?, if_neg hne, List.isPrefixOf?_eq_some_iff_append_eq.mpr h.symm]
  rfl

end ResourceIndex.Path
