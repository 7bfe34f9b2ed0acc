import ResourceIndex.Proofs.Text.Lowercase
import ResourceIndex.Settings.Basic
/-
Accepted levels and used levels. A level is accepted by its name in any case or by its place among
the levels, but only names are used: of the places, the one in the middle is used as it was meant.
-/
namespace ResourceIndex

namespace Text

variable {s : List Char} {n : Nat}

/-- Decimal digits, any zeros in front included, behind a plus sign or without one. -/
def WritesNumber (s : List Char) (n : Nat) : Prop :=
  ∃ digits, (s = digits ∨ s = '+' :: digits) ∧ digits ≠ [] ∧ (∀ d ∈ digits, d.isDigit = true) ∧
    digitsValue digits = n

theorem natural?_eq_some_iff :
    natural? s = some n ↔ s ≠ [] ∧ (∀ d ∈ s, d.isDigit = true) ∧ digitsValue s = n := by
  unfold natural?
  cases s with
  | nil => exact iff_of_false nofun fun h => h.1 rfl
  | cons c s => simp

theorem WritesNumber.exists_isDigit_mem (h : WritesNumber s n) : ∃ d ∈ s, d.isDigit = true := by
  obtain ⟨digits, hs, hne, hall, -⟩ := h
  obtain ⟨d, ds, rfl⟩ := List.exists_cons_of_ne_nil hne
  refine ⟨d, ?_, hall d List.mem_cons_self⟩
  rcases hs with rfl | rfl
  · exact List.mem_cons_self
  · exact List.mem_cons_of_mem _ List.mem_cons_self

theorem word?_eq_some_iff : word? s = some n ↔ WritesNumber s n ∧ n < UInt64.size := by
  rw [word?, Option.bind_eq_bind, Option.bind_eq_some_iff]
  constructor
  · rintro ⟨m, hm, hsize⟩
    split at hsize
    · cases hsize
      obtain ⟨hne, hall, hvalue⟩ := natural?_eq_some_iff.mp hm
      refine ⟨⟨_, ?_, hne, hall, hvalue⟩, ‹_›⟩
      split
      · rename_i hplus
        obtain ⟨r, rfl⟩ := List.head?_eq_some_iff.mp hplus
        exact .inr rfl
      · exact .inl rfl
    · cases hsize
  · rintro ⟨⟨digits, hs, hne, hall, hvalue⟩, hsize⟩
    have hunsigned : (if s.head? = some '+' then s.drop 1 else s) = digits := by
      rcases hs with rfl | rfl
      · refine if_neg fun hplus => ?_
        obtain ⟨r, rfl⟩ := List.head?_eq_some_iff.mp hplus
        exact absurd (hall '+' List.mem_cons_self) (by decide)
      · rfl
    exact ⟨n, hunsigned ▸ natural?_eq_some_iff.mpr ⟨hne, hall, hvalue⟩, if_pos hsize⟩

end Text

namespace LogLevel

open Text

variable {l : LogLevel} {s : List Char} {n : Nat}

/-- The place of a level, counted from the one with the least that is logged. -/
def place : LogLevel → Nat
  | error => 1
  | warn => 2
  | info => 3
  | debug => 4
  | trace => 5

/-- A text is the name of a level, in capitals or small letters. -/
def Names (s : List Char) (l : LogLevel) : Prop := lowerAscii s = l.name.toList

instance (s : List Char) (l : LogLevel) : Decidable (Names s l) :=
  inferInstanceAs (Decidable (lowerAscii s = l.name.toList))

theorem mem_all (l : LogLevel) : l ∈ all := by
  cases l <;> decide

theorem lowerAscii_name (l : LogLevel) : lowerAscii l.name.toList = l.name.toList := by
  cases l <;> decide

theorem isAlpha_of_mem_name (l : LogLevel) : ∀ c ∈ l.name.toList, c.isAlpha = true := by
  rw [← List.all_eq_true]
  cases l <;> decide

theorem name_inj {m : LogLevel} (h : l.name.toList = m.name.toList) : l = m := by
  cases l <;> cases m <;> first | rfl | exact absurd h (by decide)

theorem Names.ascii (h : Names s l) : ∀ c ∈ s, c.toNat < 128 := by
  intro c hc
  have hmem : c.toLower ∈ l.name.toList := h ▸ List.mem_map_of_mem hc
  have hletter := isAlpha_of_mem_name l _ hmem
  exact toNat_lt_of_toLower (toNat_lt_of_isAlpha hletter)

theorem not_isDigit_of_mem_name {c : Char} (h : c ∈ l.name.toList) : ¬ c.isDigit = true := by
  intro hdigit
  have hsign := (isSign_of_isDigit hdigit).2
  rw [isAlpha_of_mem_name l c h] at hsign
  cases hsign

theorem Names.not_writesNumber (h : Names s l) : ¬ WritesNumber s n := by
  intro hnumber
  obtain ⟨d, hd, hdigit⟩ := hnumber.exists_isDigit_mem
  have hmem : d ∈ lower s := (mem_lower_iff (isSign_of_isDigit hdigit)).mpr hd
  rw [lower_of_ascii h.ascii, h] at hmem
  exact not_isDigit_of_mem_name hmem hdigit

theorem find?_all {p : LogLevel → Bool} (hl : p l = true) (hp : ∀ m, p m = true → m = l) :
    all.find? p = some l := by
  obtain ⟨m, hm⟩ := Option.isSome_iff_exists.mp (List.find?_isSome.mpr ⟨l, mem_all l, hl⟩)
  rw [hm, hp m (List.find?_some hm)]

theorem sameAscii_name_iff (m : LogLevel) (s : List Char) :
    sameAscii m.name.toList s = true ↔ Names s m := by
  rw [sameAscii, lowerAscii_name, beq_iff_eq, Names, eq_comm]

theorem find?_sameAscii_eq_some_iff :
    (all.find? fun m => sameAscii m.name.toList s) = some l ↔ Names s l := by
  constructor
  · intro h
    have hname := List.find?_some h
    exact (sameAscii_name_iff l s).mp hname
  · intro h
    refine find?_all ((sameAscii_name_iff l s).mpr h) fun m hm => ?_
    exact name_inj (((sameAscii_name_iff m s).mp hm).symm.trans h)

theorem getElem?_all_eq_some_iff : all[n]? = some l ↔ n + 1 = l.place := by
  constructor
  · intro h
    have hn : n < 5 := (List.getElem?_eq_some_iff.mp h).1
    have hplaces : ∀ n < 5, all[n]?.map place = some (n + 1) := by decide
    have hplace := hplaces n hn
    rw [h] at hplace
    exact (Option.some.inj hplace).symm
  · intro h
    have hn : n = l.place - 1 := by omega
    rw [hn]
    cases l <;> rfl

theorem placed_eq_some_iff :
    ((word? s).bind fun n => if n = 0 then none else all[n - 1]?) = some l ↔
      WritesNumber s l.place := by
  rw [Option.bind_eq_some_iff]
  constructor
  · rintro ⟨n, hword, hplace⟩
    split at hplace
    · cases hplace
    · have hn := getElem?_all_eq_some_iff.mp hplace
      obtain rfl : n = l.place := by omega
      exact (word?_eq_some_iff.mp hword).1
  · intro h
    have hbounds : 0 < l.place ∧ l.place < UInt64.size := by cases l <;> decide
    refine ⟨l.place, word?_eq_some_iff.mpr ⟨h, hbounds.2⟩, ?_⟩
    rw [if_neg (by omega), getElem?_all_eq_some_iff]
    omega

/-- A level is accepted by its place or by its name. -/
theorem read?_eq_some_iff : read? s = some l ↔ WritesNumber s l.place ∨ Names s l := by
  unfold read?
  split
  · rename_i level hplaced
    have hnumber := placed_eq_some_iff.mp hplaced
    rw [← placed_eq_some_iff, hplaced]
    exact ⟨.inl, fun h => h.resolve_right fun hname => hname.not_writesNumber hnumber⟩
  · rename_i hplaced
    rw [find?_sameAscii_eq_some_iff, ← placed_eq_some_iff, hplaced]
    exact ⟨.inr, fun h => h.resolve_left nofun⟩

theorem ofText_of_names (h : Names s l) : ofText s = l := by
  have hfind : (all.find? fun m => m.name.toList == lower s) = some l := by
    rw [lower_of_ascii h.ascii, h]
    exact find?_all (beq_self_eq_true _) fun m hm => name_inj (eq_of_beq hm)
  rw [ofText, hfind]
  rfl

/-- A number is used like any text that names no level. -/
theorem ofText_of_writesNumber (h : WritesNumber s n) : ofText s = info := by
  obtain ⟨d, hd, hdigit⟩ := h.exists_isDigit_mem
  have hmem : d ∈ lower s := (mem_lower_iff (isSign_of_isDigit hdigit)).mpr hd
  have hfind : (all.find? fun m => m.name.toList == lower s) = none := by
    rw [List.find?_eq_none]
    intro m _ hname
    rw [← eq_of_beq hname] at hmem
    exact not_isDigit_of_mem_name hmem hdigit
  rw [ofText, hfind]
  rfl

/-- Of an accepted text the level is used, unless it is a number other than that of the middle
level. -/
theorem ofText_eq_iff (h : read? s = some l) : ofText s = l ↔ Names s l ∨ l = info := by
  rcases read?_eq_some_iff.mp h with hnumber | hname
  · rw [ofText_of_writesNumber hnumber, eq_comm]
    exact ⟨.inr, fun h => h.resolve_left fun hname => hname.not_writesNumber hnumber⟩
  · exact iff_of_true (ofText_of_names hname) (.inl hname)

end LogLevel

namespace Settings

theorem logLevel_accepted {s : Settings} (h : s.validate = .ok ()) :
    ∃ l, LogLevel.read? s.logLevel.toList = some l := by
  unfold validate at h
  split at h
  · cases h
  split at h
  · cases h
  split at h
  · cases h
  split at h
  · cases h
  · exact Option.ne_none_iff_exists'.mp ‹_›

/-- The level of valid settings was given by its name or by its place, and it is the level that is
used if it was given by its name or is the middle one. -/
theorem accepted_level_used_iff {s : Settings} (h : s.validate = .ok ()) :
    ∃ l, LogLevel.read? s.logLevel.toList = some l ∧
      (Text.WritesNumber s.logLevel.toList l.place ∨ LogLevel.Names s.logLevel.toList l) ∧
      (LogLevel.ofText s.logLevel.toList = l ↔ LogLevel.Names s.logLevel.toList l ∨ l = .info) := by
  obtain ⟨l, hl⟩ := logLevel_accepted h
  exact ⟨l, hl, LogLevel.read?_eq_some_iff.mp hl, LogLevel.ofText_eq_iff hl⟩

/-- A name in mixed letters. -/
theorem accepted_level_used_in_mixed_letters :
    let s : Settings := { standard with logLevel := "tRaCE" }
    s.validate = .ok () ∧ LogLevel.ofText s.logLevel.toList = .trace := by
  intro s
  have hread : LogLevel.read? s.logLevel.toList = some .trace := by decide
  have hvalid : s.validate = .ok () := by
    rw [validate, hread]
    rfl
  obtain ⟨l, hl, -, hused⟩ := accepted_level_used_iff hvalid
  obtain rfl : LogLevel.trace = l := Option.some.inj (hread.symm.trans hl)
  have hname : LogLevel.Names s.logLevel.toList .trace := by decide
  exact ⟨hvalid, hused.mpr (.inl hname)⟩

/-- The place of the level at which the least is logged is accepted, and used as the middle one. -/
theorem accepted_place_not_used :
    let s : Settings := { standard with logLevel := "1" }
    s.validate = .ok () ∧ LogLevel.read? s.logLevel.toList = some .error ∧
      LogLevel.ofText s.logLevel.toList = .info := ⟨rfl, rfl, rfl⟩

end Settings
end ResourceIndex
