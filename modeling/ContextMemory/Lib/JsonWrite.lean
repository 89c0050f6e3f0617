/-
What is written for a value.

The text that is written for a value reads as that value, given digits enough (`exists_reads_write`),
so two values are not written alike (`write_injective`). It has no control characters, and the
code units of a text are those of no other (`units_injective`).
-/

import ContextMemory.Lib.JsonPhases

namespace JsonText

/-! ### Code units -/

theorem toNat_not_surrogate (c : Char) : c.toNat < 0xD800 ∨ 0xDFFF < c.toNat := by
  rcases c.valid with h | ⟨h, -⟩
  · exact Or.inl h
  · exact Or.inr h

theorem toNat_lt (c : Char) : c.toNat < 0x110000 := by
  rcases c.valid with h | ⟨-, h⟩
  · exact Nat.lt_trans h (by decide)
  · exact h

/-- A character is known from the code units that begin with its own. -/
theorem utf16_append_injective {c d : Char} {xs ys : List CodeUnit}
    (h : utf16 c ++ xs = utf16 d ++ ys) : c = d ∧ xs = ys := by
  have hc := toNat_not_surrogate c
  have hd := toNat_not_surrogate d
  have hc' := toNat_lt c
  have hd' := toNat_lt d
  have hunit : ∀ {m n : Nat}, Fin.ofNat 0x10000 m = Fin.ofNat 0x10000 n →
      m % 0x10000 = n % 0x10000 := fun heq => congrArg Fin.val heq
  unfold utf16 at h
  by_cases hsmall : c.toNat < 0x10000 <;> by_cases hsmall' : d.toNat < 0x10000
  · rw [if_pos hsmall, if_pos hsmall'] at h
    obtain ⟨hfirst, hrest⟩ := List.cons.inj h
    have hsame := hunit hfirst
    exact ⟨Char.toNat_inj.mp (by omega), hrest⟩
  · -- a character of its own is no first half of a pair
    rw [if_pos hsmall, if_neg hsmall'] at h
    have hsame := hunit (List.cons.inj h).1
    omega
  · rw [if_neg hsmall, if_pos hsmall'] at h
    have hsame := hunit (List.cons.inj h).1
    omega
  · rw [if_neg hsmall, if_neg hsmall'] at h
    obtain ⟨hfirst, htail⟩ := List.cons.inj h
    obtain ⟨hsecond, hrest⟩ := List.cons.inj htail
    have hhigh := hunit hfirst
    have hlow := hunit hsecond
    exact ⟨Char.toNat_inj.mp (by omega), hrest⟩

theorem units_injective {text text' : List Char}
    (h : text.flatMap utf16 = text'.flatMap utf16) : text = text' := by
  have hne : ∀ (c : Char) (units : List CodeUnit), utf16 c ++ units ≠ [] := by
    intro c units
    unfold utf16
    split <;> simp
  induction text generalizing text' with
  | nil =>
      cases text' with
      | nil => rfl
      | cons d text' => exact absurd h.symm (hne d _)
  | cons c text ih =>
      cases text' with
      | nil => exact absurd h (hne c _)
      | cons d text' =>
          obtain ⟨rfl, hrest⟩ := utf16_append_injective h
          rw [ih hrest]

section Write

variable {F : Type} {num : Numbers F}

/-! ### No control characters -/

theorem nul_not_mem_writeUnit (unit : CodeUnit) : '\x00' ∉ writeUnit unit := by
  unfold writeUnit
  split
  · rename_i escape hfind
    have hall : ∀ escape ∈ shortEscapes, '\x00' ∉ ['\\', escape.1] := by decide
    exact hall escape (List.mem_of_find?_eq_some hfind)
  · split
    · rename_i hrange
      have hvalid : unit.val.isValidChar := Or.inl (by omega)
      rw [List.mem_singleton]
      intro hnul
      have hval : (Char.ofNat unit.val).toNat = unit.val := by
        rw [Char.ofNat, dif_pos hvalid]
        rfl
      rw [← hnul] at hval
      exact absurd (hval ▸ hrange.1) (by decide)
    · have hchar : ∀ digit, '\x00' ≠ hexChar digit := by decide
      simp only [List.mem_cons, hexText, List.map_cons, List.map_nil, List.not_mem_nil, or_false,
        hchar, not_or]
      exact ⟨by decide, by decide⟩

theorem nul_not_mem_quote (units : List CodeUnit) : '\x00' ∉ quote units := by
  have hcontent : '\x00' ∉ units.flatMap writeUnit := by
    rw [List.mem_flatMap]
    rintro ⟨unit, -, hmem⟩
    exact nul_not_mem_writeUnit unit hmem
  simp [quote, hcontent]

theorem nul_not_mem_word (l : Literal) : '\x00' ∉ l.word := by
  rcases l with _ | (_ | _) | _ | _ | _ <;> decide

theorem nul_not_mem_numeral (n : Numeral) : '\x00' ∉ n.text := fun h =>
  absurd (numeralChar_text n _ h) (by decide)

theorem nul_not_mem_writeScalar (a : Scalar F) : '\x00' ∉ writeScalar num a := by
  cases a with
  | null => exact nul_not_mem_word .null
  | bool b => exact nul_not_mem_word (.bool b)
  | int n =>
      rw [writeScalar, ← text_intNumeral]
      exact nul_not_mem_numeral _
  | float x =>
      rw [writeScalar]
      rcases num.reads_toText x with ⟨l, -, htext⟩ | ⟨n, -, htext⟩
      · rw [htext]
        exact nul_not_mem_word l
      · rw [htext]
        exact nul_not_mem_numeral n

theorem nul_not_mem_separate {texts : List (List Char)} (h : ∀ text ∈ texts, '\x00' ∉ text) :
    '\x00' ∉ separate texts := by
  induction texts with
  | nil => exact List.not_mem_nil
  | cons text texts ih =>
      obtain ⟨htext, htexts⟩ := List.forall_mem_cons.mp h
      cases texts with
      | nil => exact htext
      | cons next texts =>
          have hrest := ih htexts
          simp only [separate, List.mem_append, List.mem_cons, not_or]
          exact ⟨htext, by decide, by decide, hrest⟩

theorem nul_not_mem_write (v : Value F) : '\x00' ∉ write num v := by
  induction v using Value.induct with
  | scalar a =>
      rw [write_scalar]
      exact nul_not_mem_writeScalar a
  | str units =>
      rw [write_str]
      exact nul_not_mem_quote units
  | arr items ih =>
      have hitems := nul_not_mem_separate (List.forall_mem_map.mpr ih)
      rw [write_arr]
      simp [hitems]
  | obj members ih =>
      have hmembers : '\x00' ∉ separate (members.map fun m =>
          quote m.1 ++ ':' :: ' ' :: write num m.2) := by
        refine nul_not_mem_separate (List.forall_mem_map.mpr fun m hm => ?_)
        simp [nul_not_mem_quote, ih m hm]
      rw [write_obj]
      simp [hmembers]

/-! ### What is written is read -/

/-- From some number on, as many digits and levels are enough to read what is written. -/
def ReadsFrom (num : Numbers F) (n : Nat) (v : Value F) : Prop :=
  ∀ depth digits, n ≤ depth → n ≤ digits →
    Reads { num with maxDigits := digits } depth v (write num v)

theorem ReadsFrom.mono {n m : Nat} {v : Value F} (h : ReadsFrom num n v) (hle : n ≤ m) :
    ReadsFrom num m v :=
  fun depth digits hdepth hdigits => h depth digits (hle.trans hdepth) (hle.trans hdigits)

theorem exists_readsFrom_all {values : List (Value F)} (h : ∀ v ∈ values, ∃ n, ReadsFrom num n v) :
    ∃ n, ∀ v ∈ values, ReadsFrom num n v := by
  induction values with
  | nil => exact ⟨0, fun v hv => absurd hv List.not_mem_nil⟩
  | cons v values ih =>
      obtain ⟨⟨n, hn⟩, hrest⟩ := List.forall_mem_cons.mp h
      obtain ⟨m, hm⟩ := ih hrest
      refine ⟨max n m, List.forall_mem_cons.mpr ⟨hn.mono (le_max_left n m), fun w hw => ?_⟩⟩
      exact (hm w hw).mono (le_max_right n m)

theorem readsFrom_scalar (a : Scalar F) : ∃ n, ReadsFrom num n (.scalar a) := by
  have hlayer : ∃ n, 1 ≤ n ∧ ∀ (R : Value F → List Char → Prop) digits, n ≤ digits →
      Layer { num with maxDigits := digits } R (.scalar a) (writeScalar num a) := by
    cases a with
    | null => exact ⟨1, le_rfl, fun R digits _ => Layer.literal .null⟩
    | bool b => exact ⟨1, le_rfl, fun R digits _ => Layer.literal (.bool b)⟩
    | float x => exact ⟨1, le_rfl, fun R digits _ => layer_float x⟩
    | int k =>
        refine ⟨max 1 (intNumeral k).whole.length, le_max_left _ _, fun R digits hdigits => ?_⟩
        have hwritten : Layer { num with maxDigits := digits } R
            (.scalar (num.numeral (intNumeral k))) (intNumeral k).text :=
          Layer.numeral _ fun _ => (le_max_right _ _).trans hdigits
        rw [numeral_intNumeral, text_intNumeral] at hwritten
        exact hwritten
  obtain ⟨n, hn, hlayer⟩ := hlayer
  refine ⟨n, fun depth digits hdepth hdigits => ?_⟩
  obtain ⟨depth, rfl⟩ := Nat.exists_eq_add_of_le' (hn.trans hdepth)
  rw [write_scalar]
  exact hlayer _ digits hdigits

theorem exists_reads_write (num : Numbers F) (v : Value F) : ∃ n, ReadsFrom num n v := by
  induction v using Value.induct with
  | scalar a => exact readsFrom_scalar a
  | str units =>
      refine ⟨1, fun depth digits hdepth _ => ?_⟩
      obtain ⟨depth, rfl⟩ := Nat.exists_eq_add_of_le' hdepth
      rw [write_str]
      exact Layer.str (content_write units)
  | arr items ih =>
      obtain ⟨n, hn⟩ := exists_readsFrom_all ih
      refine ⟨n + 1, fun depth digits hdepth hdigits => ?_⟩
      obtain ⟨depth, rfl⟩ := Nat.exists_eq_add_of_le' (Nat.le_of_add_left_le hdepth)
      rw [write_arr]
      refine Layer.arr (body_separate fun item hitem => ?_)
      exact hn item hitem depth digits (by omega) (by omega)
  | obj members ih =>
      obtain ⟨n, hn⟩ := exists_readsFrom_all (List.forall_mem_map.mpr ih)
      refine ⟨n + 1, fun depth digits hdepth hdigits => ?_⟩
      obtain ⟨depth, rfl⟩ := Nat.exists_eq_add_of_le' (Nat.le_of_add_left_le hdepth)
      rw [write_obj]
      refine Layer.obj (body_separate fun m hm => ?_)
      have hspace : Ws [' '] := by decide
      have hvalue := hn m.2 (List.mem_map_of_mem hm) depth digits (by omega) (by omega)
      simpa [quote] using Entry.mk (content_write m.1) ws_nil hspace hvalue

/-- **Writing.** Two values are not written alike. -/
theorem write_injective {v v' : Value F} (h : write num v = write num v') : v = v' := by
  obtain ⟨n, hn⟩ := exists_reads_write num v
  obtain ⟨n', hn'⟩ := exists_reads_write num v'
  have hv := hn (max n n') (max n n') (le_max_left n n') (le_max_left n n')
  have hv' := hn' (max n n') (max n n') (le_max_right n n') (le_max_right n n')
  rw [← h] at hv'
  exact Text.unique ⟨_, hv⟩ ⟨_, hv'⟩

end Write

end JsonText
