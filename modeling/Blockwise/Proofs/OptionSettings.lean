import Blockwise.Options
import Mathlib.Data.Nat.Digits.Defs

/-!
What a list of arguments sets. Each field of the options is governed by one flag: it is as the last
element that is the flag leaves it, or as it was before if the flag does not occur. Elements that
serve as values are read as flags as well, and all other elements are without effect.
-/
namespace Blockwise

/-! ### Numbers -/

namespace Numeral

variable {value v bound : ℕ} {digits text : List Char}

def Denotes (digits : List Char) (v : ℕ) : Prop :=
  (∀ c ∈ digits, '0' ≤ c ∧ c ≤ '9') ∧
    v = Nat.ofDigits 10 (digits.reverse.map fun c => c.toNat - '0'.toNat)

theorem digit?_eq_some {c : Char} {d : ℕ} :
    digit? c = some d ↔ ('0' ≤ c ∧ c ≤ '9') ∧ d = c.toNat - '0'.toNat := by
  unfold digit?
  split <;> simp_all [eq_comm]

theorem readDigits_eq_some : readDigits value digits = some v ↔
    ∃ u, Denotes digits u ∧ v = 10 ^ digits.length * value + u := by
  induction digits generalizing value with
  | nil => simp [readDigits, Denotes, eq_comm]
  | cons c rest ih =>
    have hcons : ∀ u, Denotes (c :: rest) u ↔ ∃ d w, digit? c = some d ∧ Denotes rest w ∧
        u = 10 ^ rest.length * d + w := by
      intro u
      simp only [Denotes, digit?_eq_some, List.forall_mem_cons, List.reverse_cons, List.map_append,
        Nat.ofDigits_append, List.length_map, List.length_reverse, List.map_cons, List.map_nil,
        Nat.ofDigits_singleton]
      constructor
      · rintro ⟨⟨hc, hrest⟩, rfl⟩
        exact ⟨_, _, ⟨hc, rfl⟩, ⟨hrest, rfl⟩, Nat.add_comm ..⟩
      · rintro ⟨d, w, ⟨hc, rfl⟩, ⟨hrest, rfl⟩, rfl⟩
        exact ⟨⟨hc, hrest⟩, Nat.add_comm ..⟩
    simp only [readDigits, Option.bind_eq_bind, Option.bind_eq_some_iff, ih, hcons]
    constructor
    · rintro ⟨d, hd, w, hw, rfl⟩
      exact ⟨_, ⟨d, w, hd, hw, rfl⟩, by rw [List.length_cons]; ring⟩
    · rintro ⟨_, ⟨d, w, hd, hw, rfl⟩, rfl⟩
      exact ⟨d, hd, w, hw, by rw [List.length_cons]; ring⟩

theorem readDigits_zero_eq_some : readDigits 0 digits = some v ↔ Denotes digits v := by
  simp [readDigits_eq_some]

/-- The text is one or more digits that denote `v`, with a plus sign before them or none. -/
def Spells (text : List Char) (v : ℕ) : Prop :=
  ∃ digits, (text = digits ∨ text = '+' :: digits) ∧ digits ≠ [] ∧ Denotes digits v

theorem readBelow_eq_some : readBelow bound text = some v ↔ Spells text v ∧ v < bound := by
  have hplus : ∀ rest, ¬ Denotes ('+' :: rest) v := by
    intro rest hrest
    exact absurd (hrest.1 '+' (List.mem_cons_self ..)).1 (by decide)
  have hread : ∀ digits, (if digits.isEmpty then none
      else (readDigits 0 digits).filter (· < bound)) = some v ↔
        digits ≠ [] ∧ Denotes digits v ∧ v < bound := by
    intro digits
    rw [← readDigits_zero_eq_some]
    cases digits with
    | nil => simp
    | cons c rest => simp [Option.filter_eq_some_iff]
  unfold readBelow
  split
  · rename_i rest
    rw [hread]
    constructor
    · exact fun ⟨hne, hd, hv⟩ => ⟨⟨rest, Or.inr rfl, hne, hd⟩, hv⟩
    · rintro ⟨⟨digits, rfl | htext, hne, hd⟩, hv⟩
      · exact absurd hd (hplus rest)
      · cases htext
        exact ⟨hne, hd, hv⟩
  · rename_i hsign
    rw [hread]
    constructor
    · exact fun ⟨hne, hd, hv⟩ => ⟨⟨text, Or.inl rfl, hne, hd⟩, hv⟩
    · rintro ⟨⟨digits, rfl | rfl, hne, hd⟩, hv⟩
      · exact ⟨hne, hd, hv⟩
      · exact absurd rfl (hsign digits)

end Numeral

/-! ### Flags -/

namespace Options

variable {α : Type} {field : Options → α} {flag arg arg' value : String}
  {choose : Option String → α} {before after args : List String}

/-- The field is set by this flag only, according to the element behind the flag. -/
def Governs (flag : String) (choose : Option String → α) (field : Options → α) : Prop :=
  ∀ arg next o, field (read arg next o) = if arg = flag then choose next else field o

theorem governs_aggressiveCaching :
    Governs "--aggressive-caching" (fun _ => true) aggressiveCaching := by
  intro arg next o
  unfold read
  split_ifs <;> simp_all

theorem governs_statsJson : Governs "--stats-json" (fun _ => true) statsJson := by
  intro arg next o
  unfold read
  split_ifs <;> simp_all

theorem governs_order : Governs "--waitlist" readOrder order := by
  intro arg next o
  unfold read
  split_ifs <;> simp_all

theorem governs_maxDepth : Governs "--max-depth" readDepth maxDepth := by
  intro arg next o
  unfold read
  split_ifs <;> simp_all

theorem exists_last (hargs : flag ∈ args) :
    ∃ before after, args = before ++ flag :: after ∧ flag ∉ after := by
  obtain ⟨tail, rest, hsplit, htail⟩ := List.eq_append_cons_of_mem (List.mem_reverse.2 hargs)
  refine ⟨rest.reverse, tail.reverse, ?_, by simpa using htail⟩
  rw [← List.reverse_reverse args, hsplit]
  simp

theorem last_unique {before' after' : List String}
    (h : before ++ flag :: after = before' ++ flag :: after') (hafter : flag ∉ after)
    (hafter' : flag ∉ after') : after = after' := by
  have hsame : ∀ {c l l' : List String}, flag ∉ l → flag :: l = c ++ flag :: l' → l = l' := by
    intro c l l' hl hc
    cases c with
    | nil => exact (List.cons.inj hc).2
    | cons a c =>
      rw [(List.cons.inj hc).2] at hl
      simp at hl
  rcases List.append_eq_append_iff.1 h with ⟨c, -, hc⟩ | ⟨c, -, hc⟩
  · exact hsame hafter hc
  · exact (hsame hafter' hc).symm

namespace Governs

variable (h : Governs flag choose field)

include h

theorem readAll_of_not_mem (o : Options) (hargs : flag ∉ args) :
    field (readAll o args) = field o := by
  induction args generalizing o with
  | nil => rfl
  | cons arg rest ih =>
    have hrest : flag ∉ rest := fun hmem => hargs (List.mem_cons_of_mem _ hmem)
    have harg : arg ≠ flag := fun he => hargs (he ▸ List.mem_cons_self ..)
    rw [readAll, ih _ hrest, h, if_neg harg]

theorem readAll_of_last (o : Options) (hafter : flag ∉ after) :
    field (readAll o (before ++ flag :: after)) = choose after.head? := by
  induction before generalizing o with
  | nil => rw [List.nil_append, readAll, h.readAll_of_not_mem _ hafter, h, if_pos rfl]
  | cons arg rest ih => exact ih _

theorem ofArgs_cases (args : List String) :
    (flag ∉ args ∧ field (ofArgs args) = field {}) ∨
      ∃ before after, args = before ++ flag :: after ∧ flag ∉ after ∧
        field (ofArgs args) = choose after.head? := by
  by_cases hargs : flag ∈ args
  · obtain ⟨before, after, rfl, hafter⟩ := exists_last hargs
    exact Or.inr ⟨before, after, rfl, hafter, h.readAll_of_last _ hafter⟩
  · exact Or.inl ⟨hargs, h.readAll_of_not_mem _ hargs⟩

end Governs

def SetTo (args : List String) (flag value : String) : Prop :=
  ∃ before after, args = before ++ flag :: value :: after ∧ flag ∉ value :: after

theorem SetTo.mem (h : SetTo args flag value) : flag ∈ args := by
  obtain ⟨before, after, rfl, -⟩ := h
  simp

theorem setTo_iff (hafter : flag ∉ after) :
    SetTo (before ++ flag :: after) flag value ↔ after.head? = some value := by
  constructor
  · rintro ⟨before', after', hsplit, hlast⟩
    rw [last_unique hsplit hafter hlast, List.head?_cons]
  · intro hhead
    obtain ⟨rest, rfl⟩ := List.head?_eq_some_iff.1 hhead
    exact ⟨before, rest, rfl, hafter⟩

/-- The element serves neither as a flag nor as the value of a setting. -/
structure Idle (before : List String) (arg : String) (after : List String) : Prop where
  flag : arg ∉ ["--aggressive-caching", "--stats-json", "--waitlist", "--max-depth"]
  value : ∀ flag ∈ ["--waitlist", "--max-depth"], before.getLast? = some flag → flag ∈ after

namespace Governs

variable (h : Governs flag choose field)

include h

theorem ofArgs_replace (before after : List String) (harg : arg ≠ flag) (harg' : arg' ≠ flag)
    (hvalue : before.getLast? = some flag → flag ∉ after →
      choose (some arg) = choose (some arg')) :
    field (ofArgs (before ++ arg :: after)) = field (ofArgs (before ++ arg' :: after)) := by
  by_cases hafter : flag ∈ after
  · obtain ⟨between, last, rfl, hlast⟩ := exists_last hafter
    have hread : ∀ x, field (ofArgs (before ++ x :: (between ++ flag :: last))) =
        choose last.head? := by
      intro x
      rw [← List.cons_append, ← List.append_assoc]
      exact h.readAll_of_last _ hlast
    rw [hread, hread]
  by_cases hbefore : flag ∈ before
  · obtain ⟨first, between, rfl, hbetween⟩ := exists_last hbefore
    have hread : ∀ {x}, x ≠ flag → field (ofArgs (first ++ flag :: between ++ x :: after)) =
        choose (between ++ x :: after).head? := by
      intro x hx
      rw [List.append_assoc, List.cons_append]
      refine h.readAll_of_last _ fun hmem => ?_
      rcases List.mem_append.1 hmem with hmem | hmem
      · exact hbetween hmem
      · exact (List.mem_cons.1 hmem).elim (Ne.symm hx) hafter
    rw [hread harg, hread harg']
    cases between with
    | nil => exact hvalue List.getLast?_concat hafter
    | cons a between => rfl
  · have hread : ∀ {x}, x ≠ flag → field (ofArgs (before ++ x :: after)) = field {} := by
      intro x hx
      refine h.readAll_of_not_mem _ fun hmem => ?_
      rcases List.mem_append.1 hmem with hmem | hmem
      · exact hbefore hmem
      · exact (List.mem_cons.1 hmem).elim (Ne.symm hx) hafter
    rw [hread harg, hread harg']

end Governs

theorem ofArgs_of_idle (h : Idle before arg after) (h' : Idle before arg' after) :
    ofArgs (before ++ arg :: after) = ofArgs (before ++ arg' :: after) := by
  obtain ⟨h₁, h₂, h₃, h₄⟩ : arg ≠ "--aggressive-caching" ∧ arg ≠ "--stats-json" ∧
      arg ≠ "--waitlist" ∧ arg ≠ "--max-depth" := by simpa using h.flag
  obtain ⟨h₁', h₂', h₃', h₄'⟩ : arg' ≠ "--aggressive-caching" ∧ arg' ≠ "--stats-json" ∧
      arg' ≠ "--waitlist" ∧ arg' ≠ "--max-depth" := by simpa using h'.flag
  have hcaching := governs_aggressiveCaching.ofArgs_replace before after h₁ h₁' fun _ _ => rfl
  have hstats := governs_statsJson.ofArgs_replace before after h₂ h₂' fun _ _ => rfl
  have horder := governs_order.ofArgs_replace before after h₃ h₃' fun hlast hafter =>
    absurd (h.value _ (by simp) hlast) hafter
  have hdepth := governs_maxDepth.ofArgs_replace before after h₄ h₄' fun hlast hafter =>
    absurd (h.value _ (by simp) hlast) hafter
  cases hl : ofArgs (before ++ arg :: after)
  cases hr : ofArgs (before ++ arg' :: after)
  simp_all

theorem order_ofArgs (args : List String) :
    (ofArgs args).order = .lifo ↔ SetTo args "--waitlist" "lifo" := by
  rcases governs_order.ofArgs_cases args with ⟨hno, hdefault⟩ | ⟨before, after, rfl, hafter, hset⟩
  · rw [hdefault]
    exact ⟨nofun, fun h => absurd h.mem hno⟩
  · rw [hset, setTo_iff hafter, readOrder]
    split <;> simp_all

theorem maxDepth_ofArgs (args : List String) : ∃ given : Option ℕ,
    (ofArgs args).maxDepth = given.getD 20 ∧ ∀ v, given = some v ↔
      ∃ value, SetTo args "--max-depth" value ∧ Numeral.Spells value.toList v ∧ v < 2 ^ 32 := by
  rcases governs_maxDepth.ofArgs_cases args with
    ⟨hno, hdefault⟩ | ⟨before, after, rfl, hafter, hset⟩
  · refine ⟨none, hdefault, fun v => ⟨nofun, ?_⟩⟩
    rintro ⟨value, h, -⟩
    exact absurd h.mem hno
  · refine ⟨_, hset, fun v => ?_⟩
    simp only [Option.bind_eq_some_iff, Numeral.readBelow_eq_some, setTo_iff hafter]
    exact Iff.rfl

/-- The options that a list of arguments sets. -/
theorem last_setting_wins (args : List String) :
    ((ofArgs args).aggressiveCaching = true ↔ "--aggressive-caching" ∈ args) ∧
    ((ofArgs args).statsJson = true ↔ "--stats-json" ∈ args) ∧
    ((ofArgs args).order = .lifo ↔ SetTo args "--waitlist" "lifo") ∧
    (∀ v, (ofArgs args).maxDepth = v ↔
      (∃ value, SetTo args "--max-depth" value ∧ Numeral.Spells value.toList v ∧ v < 2 ^ 32) ∨
      v = 20 ∧ ¬ ∃ value w, SetTo args "--max-depth" value ∧ Numeral.Spells value.toList w ∧
        w < 2 ^ 32) ∧
    ∀ before arg arg' after, args = before ++ arg :: after → Idle before arg after →
      Idle before arg' after → ofArgs (before ++ arg' :: after) = ofArgs args := by
  refine ⟨?_, ?_, order_ofArgs args, fun v => ?_, ?_⟩
  · rcases governs_aggressiveCaching.ofArgs_cases args with ⟨hno, h⟩ | ⟨_, _, rfl, -, h⟩ <;>
      simp [*]
  · rcases governs_statsJson.ofArgs_cases args with ⟨hno, h⟩ | ⟨_, _, rfl, -, h⟩ <;> simp [*]
  · obtain ⟨given, hdepth, hgiven⟩ := maxDepth_ofArgs args
    have hnone : (¬ ∃ value w, SetTo args "--max-depth" value ∧ Numeral.Spells value.toList w ∧
        w < 2 ^ 32) ↔ given = none := by
      rw [Option.eq_none_iff_forall_ne_some, exists_comm]
      simp only [← hgiven, not_exists, ne_eq]
    rw [hdepth, hnone, ← hgiven]
    cases given <;> simp [eq_comm]
  · rintro before arg arg' after rfl h h'
    exact ofArgs_of_idle h' h

example : ofArgs ["--max-depth", "5", "--max-depth", "--waitlist", "lifo"] =
    { order := .lifo } := by
  decide +kernel

end Options

end Blockwise
