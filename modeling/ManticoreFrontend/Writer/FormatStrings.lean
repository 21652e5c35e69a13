/- source: passes/manticore/manticore_writer.cc (convertFmt), manticore_utils.cc (split)
   digest: The translation of format strings, and the strings it does not keep. -/

import Mathlib.Data.List.Basic

namespace ManticoreFrontend.Writer.FormatStrings

open List

variable (original : List Char)

def split (delim : Char) : List (List Char) :=
  if original.isEmpty then [] else original.splitOn delim

/-- The letters of the six supported conversions. -/
def isSpecType (c : Char) : Bool := ['h', 'b', 'd', 'H', 'B', 'D'].contains c

def isSizeStart (c : Char) : Bool := ['1', '2', '3', '4', '5', '6', '7', '8', '9'].contains c

variable (p : List Char)

def lead : List Char := if p.head? = some '0' then ['0'] else []

/-- A part in front of the first letter that `find_first_of` meets, and from there on. -/
def beforeType : List Char := p.takeWhile (fun c => !isSpecType c)

def fromType : List Char := p.dropWhile (fun c => !isSpecType c)

/-- A part in front of which a `%` stood; `none` stands for `log_error`. -/
def convertPart (p size : List Char) : Option (List Char) :=
  if fromType p = [] then none
  else if (beforeType p).any isSizeStart then none
  else some ('%' :: lead p ++ size ++ fromType p)

/-- The loop over the parts behind the first one. -/
def convertParts : List (List Char) → List (List Char) → Option (List Char)
  | [], _ => some []
  | _ :: _, [] => none
  | p :: parts, size :: sizes => do
    let converted ← convertPart p size
    let rest ← convertParts parts sizes
    pure (converted ++ rest)

def convertFmt (sizes : List (List Char)) : Option (List Char) :=
  match split original '%' with
  | [] => some original
  | [part] => some part
  | first :: parts => (first ++ ·) <$> convertParts parts sizes

def conversions : List (List Char) := (original.splitOn '%').tail

/-- The part starts with a supported letter, or with a zero and such a letter. -/
def isPlain : List Char → Bool
  | '0' :: c :: _ => isSpecType c
  | c :: _ => isSpecType c
  | [] => false

/-- The conversion at the start of a part with a size. -/
def withSize (p size : List Char) : List Char := lead p ++ size ++ p.drop (lead p).length

/-- Conversions carry their sizes and nothing else changes; a string with any other conversion
stays as it is. -/
def Faithful (sizes : List (List Char)) (out : List Char) : Prop :=
  if ∀ p ∈ conversions original, isPlain p = true then
    out = (original.splitOn '%').headD [] ++
      (List.zipWith withSize (conversions original) sizes).flatMap ('%' :: ·)
  else out = original

instance (original : List Char) (sizes : List (List Char)) (out : List Char) :
    Decidable (Faithful original sizes out) := inferInstanceAs (Decidable (ite _ _ _))

/-- A part that is rejected: it has no supported letter, or a size in front of the first one. -/
def Rejected : Prop :=
  fromType p = [] ∨ (beforeType p).any isSizeStart = true

/-- The text between the `%`, or the zero behind it, and the first supported letter. -/
def carried : List Char := (beforeType p).drop (lead p).length

variable {p size : List Char}

theorem lead_cases (p : List Char) :
    (∃ rest, p = '0' :: rest ∧ lead p = ['0']) ∨ p.head? ≠ some '0' ∧ lead p = [] := by
  unfold lead
  split
  · rename_i zero
    obtain ⟨rest, rfl⟩ := head?_eq_some_iff.mp zero
    exact .inl ⟨rest, rfl, rfl⟩
  · rename_i other
    exact .inr ⟨other, rfl⟩

theorem part_split (p : List Char) : lead p ++ (carried p ++ fromType p) = p := by
  have before : lead p ++ carried p = beforeType p := by
    obtain ⟨rest, rfl, zero⟩ | ⟨-, none⟩ := lead_cases p
    · have digit : isSpecType '0' = false := by decide
      simp [carried, zero, beforeType, digit]
    · simp [carried, none]
  rw [← append_assoc, before]
  exact takeWhile_append_dropWhile

theorem isPlain_iff : isPlain p = true ↔ carried p = [] ∧ fromType p ≠ [] := by
  have digit : isSpecType '0' = false := by decide
  obtain ⟨rest, rfl, zero⟩ | ⟨other, none⟩ := lead_cases p
  · cases rest with
    | nil => simp [isPlain, digit, fromType]
    | cons c rest => cases type : isSpecType c <;>
        simp [isPlain, carried, zero, beforeType, fromType, digit, type]
  · cases p with
    | nil => simp [isPlain, fromType]
    | cons c rest =>
      have plain : isPlain (c :: rest) = isSpecType c := by
        cases rest <;> simp_all [isPlain]
      cases type : isSpecType c <;> simp [plain, carried, none, beforeType, fromType, type]

def converted (p size : List Char) : List Char := lead p ++ size ++ fromType p

theorem converted_plain (plain : isPlain p = true) : converted p size = withSize p size := by
  have rest : p.drop (lead p).length = fromType p := by
    have whole := part_split p
    rw [(isPlain_iff.mp plain).1, nil_append] at whole
    have dropped := congrArg (drop (lead p).length) whole
    rwa [drop_left, eq_comm] at dropped
  rw [converted, withSize, rest]

theorem not_mem_converted {c : Char} (part : c ∉ p) (text : c ∉ size) : c ∉ converted p size := by
  rw [← part_split p] at part
  simp_all [converted]

theorem converted_eq_self : converted p size = p ↔ carried p = size := by
  conv_lhs => rhs; rw [← part_split p]
  rw [converted, append_assoc, append_right_inj, append_left_inj, eq_comm]

variable {parts sizes : List (List Char)}

theorem convertParts_eq_none (fails : (∃ p ∈ parts, Rejected p) ∨ sizes.length < parts.length) :
    convertParts parts sizes = none := by
  induction parts generalizing sizes with
  | nil => simp at fails
  | cons p parts ih =>
    cases sizes with
    | nil => rfl
    | cons size sizes =>
      rw [convertParts]
      by_cases here : Rejected p
      · have none : convertPart p size = none := by
          rcases here with here | here <;> simp [convertPart, here]
        simp [none]
      · have later : convertParts parts sizes = none := by
          refine ih (fails.imp (fun rejected => ?_) fun few => by simpa using few)
          obtain ⟨q, member, rejected⟩ := rejected
          rcases mem_cons.mp member with rfl | member
          · exact absurd rejected here
          · exact ⟨q, member, rejected⟩
        simp [later]

theorem convertParts_eq_some
    (accepted : ∀ p ∈ parts, ¬ Rejected p) (enough : parts.length ≤ sizes.length) :
    convertParts parts sizes = some ((List.zipWith converted parts sizes).flatMap ('%' :: ·)) := by
  induction parts generalizing sizes with
  | nil => rfl
  | cons p parts ih =>
    obtain ⟨here, rest⟩ := forall_mem_cons.mp accepted
    cases sizes with
    | nil => simp at enough
    | cons size sizes =>
      obtain ⟨typed, unsized⟩ := not_or.mp here
      have part : convertPart p size = some ('%' :: converted p size) := by
        simp [convertPart, typed, unsized, converted]
      rw [convertParts, part, ih rest (by simpa using enough)]
      simp

theorem converted_parts (enough : parts.length ≤ sizes.length) :
    List.zipWith converted parts sizes = parts ↔ ∀ e ∈ parts.zip sizes, carried e.1 = e.2 := by
  induction parts generalizing sizes with
  | nil => simp
  | cons p parts ih =>
    cases sizes with
    | nil => simp at enough
    | cons size sizes =>
      rw [zipWith_cons_cons, cons.injEq, converted_eq_self, ih (by simpa using enough),
        zip_cons_cons, forall_mem_cons]

private theorem intercalate_percent (text : List Char) (parts : List (List Char)) :
    ['%'].intercalate (text :: parts) = text ++ parts.flatMap ('%' :: ·) := by
  induction parts generalizing text with
  | nil => simp
  | cons p parts ih =>
    rw [intercalate_cons_cons, ih]
    simp

private theorem not_mem_splitOn (text : List Char) : ∀ p ∈ text.splitOn '%', '%' ∉ p := by
  induction text with
  | nil => simp
  | cons c text ih =>
    rw [splitOn_cons_eq_if_modifyHead]
    split
    · simpa using ih
    · rename_i other
      obtain ⟨first, parts, split⟩ := exists_cons_of_ne_nil (splitOn_ne_nil '%' text)
      rw [split] at ih ⊢
      obtain ⟨here, rest⟩ := forall_mem_cons.mp ih
      refine forall_mem_cons.mpr ⟨fun member => ?_, rest⟩
      rcases mem_cons.mp member with same | member
      · exact other (by simp [← same])
      · exact here member

theorem convertFmt_eq {original first : List Char} {parts : List (List Char)}
    (split : original.splitOn '%' = first :: parts) (sizes : List (List Char)) :
    convertFmt original sizes = (first ++ ·) <$> convertParts parts sizes := by
  unfold convertFmt FormatStrings.split
  cases original with
  | nil => simp_all [convertParts]
  | cons c rest =>
    rw [isEmpty_cons, if_neg Bool.false_ne_true, split]
    cases parts with
    | nil => simp [convertParts]
    | cons p parts => rfl

/-- The string is translated or rightly rejected exactly when some part is rejected, the sizes run
out, or all parts start with a supported conversion or carry their size. -/
theorem convertFmt_faithful_iff (sizes : List Nat) :
    (∀ out, convertFmt original (sizes.map (Nat.toDigits 10)) = some out →
      Faithful original (sizes.map (Nat.toDigits 10)) out) ↔
    (∃ p ∈ conversions original, Rejected p) ∨ sizes.length < (conversions original).length ∨
      (∀ p ∈ conversions original, isPlain p = true) ∨
      ∀ e ∈ (conversions original).zip (sizes.map (Nat.toDigits 10)), carried e.1 = e.2 := by
  obtain ⟨first, parts, split⟩ := exists_cons_of_ne_nil (splitOn_ne_nil '%' original)
  have whole : ['%'].intercalate (original.splitOn '%') = original := intercalate_splitOn '%'
  have pure := not_mem_splitOn original
  have tail : conversions original = parts := by rw [conversions, split, tail_cons]
  rw [split] at pure whole
  rw [convertFmt_eq split, tail]
  unfold Faithful
  rw [tail, split, headD_cons]
  generalize digits : sizes.map (Nat.toDigits 10) = texts
  have lengths : sizes.length = texts.length := by rw [← digits, length_map]
  rw [lengths]
  by_cases fails : (∃ p ∈ parts, Rejected p) ∨ texts.length < parts.length
  · rw [convertParts_eq_none fails]
    exact iff_of_true (by simp) (or_assoc.mp (.inl fails))
  · obtain ⟨other, few⟩ := not_or.mp fails
    have enough := Nat.le_of_not_lt few
    have accepted : ∀ p ∈ parts, ¬ Rejected p := fun p member bad => other ⟨p, member, bad⟩
    rw [convertParts_eq_some accepted enough]
    simp only [other, Nat.not_lt.mpr enough, false_or, Option.map_eq_map, Option.map_some,
      Option.some.injEq, forall_eq']
    by_cases plain : ∀ p ∈ parts, isPlain p = true
    · rw [if_pos plain]
      have same : zipWith converted parts texts = zipWith withSize parts texts := by
        refine ext_getElem (by simp) fun i inside _ => ?_
        simp only [getElem_zipWith]
        exact converted_plain (plain _ (getElem_mem _))
      exact iff_of_true (by rw [same]) (.inl plain)
    · have clean : ∀ q ∈ first :: zipWith converted parts texts, '%' ∉ q := by
        obtain ⟨here, rest⟩ := forall_mem_cons.mp pure
        refine forall_mem_cons.mpr ⟨here, fun q member => ?_⟩
        obtain ⟨i, inside, rfl⟩ := mem_iff_getElem.mp member
        rw [getElem_zipWith]
        refine not_mem_converted (rest _ (getElem_mem _)) fun percent => ?_
        have digit : ∀ text ∈ texts, '%' ∉ text := by
          rw [← digits]
          intro text member percent
          obtain ⟨n, -, rfl⟩ := mem_map.mp member
          exact absurd (Nat.isDigit_of_mem_toDigits (by decide) (by decide) percent) (by decide)
        exact digit _ (getElem_mem _) percent
      rw [if_neg plain, or_iff_right plain, ← converted_parts enough, ← intercalate_percent]
      constructor
      · intro same
        have parted := splitOn_intercalate '%' clean (cons_ne_nil _ _)
        rw [same, split] at parted
        exact (cons.inj parted).2.symm
      · intro same
        rw [same, whole]

/-- In `%s and` the text supplies the letter of a conversion. -/
theorem stringConversion_lost :
    convertFmt ['%', 's', ' ', 'a', 'n', 'd'] [['8']] = some ['%', '8', 'd'] ∧
      ¬ Faithful ['%', 's', ' ', 'a', 'n', 'd'] [['8']] ['%', '8', 'd'] := by
  decide

end ManticoreFrontend.Writer.FormatStrings
