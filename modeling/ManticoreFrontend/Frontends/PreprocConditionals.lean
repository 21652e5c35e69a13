/- source: frontends/verilog/preproc.cc (frontend_verilog_preproc: conditionals, end check)
   digest: Two level counters and a flag select the text that a stack of conditional groups selects. -/

import Mathlib.Data.Option.Basic
import Mathlib.Tactic.SplitIfs

namespace ManticoreFrontend.Frontends.PreprocConditionals

/-- What the loop uses besides the conditionals, over a state of input, definitions and output;
`process` is all that is done with a token that is not skipped, and `none` an error there. -/
structure Preproc (S : Type) where
  more : S → Bool
  nextToken : S → String × S
  nextName : S → String × S
  find : S → String → Bool
  push : String → S → S
  process : String → S → Option S

/-- The conditional directives, with the truth of the condition; that of `else` holds. -/
inductive Directive where
  | opens (holds : Bool)
  | branch (holds : Bool)
  | endif

inductive Error where
  | outside (tok : String)
  | unterminated
  | process

structure Levels where
  failLevel : Nat := 0
  passLevel : Nat := 0
  alreadySatisfied : Bool := false

def Levels.opens (l : Levels) (holds : Bool) : Levels :=
  let next : Levels :=
    if l.failLevel > 0 || !holds then { l with failLevel := l.failLevel + 1 }
    else { l with passLevel := l.passLevel + 1, alreadySatisfied := true }
  if next.failLevel = 1 then { next with alreadySatisfied := false } else next

def Levels.branch (l : Levels) (holds : Bool) : Option Levels :=
  if l.failLevel = 0 then
    if l.passLevel = 0 then none else some ⟨1, l.passLevel - 1, true⟩
  else if l.failLevel = 1 && !l.alreadySatisfied && holds then some ⟨0, l.passLevel + 1, true⟩
  else some l

def Levels.endif (l : Levels) : Option Levels :=
  if l.failLevel > 0 then some { l with failLevel := l.failLevel - 1 }
  else if l.passLevel > 0 then some { l with passLevel := l.passLevel - 1 }
  else none

def Levels.apply (l : Levels) : Directive → Option Levels
  | .opens holds => some (l.opens holds)
  | .branch holds => l.branch holds
  | .endif => l.endif

variable {S : Type} (p : Preproc S)

def Preproc.read (s : S) : String × Option Directive × S :=
  let (tok, s) := p.nextToken s
  let (name, t) := p.nextName s
  if tok = "`endif" then (tok, some .endif, s)
  else if tok = "`else" then (tok, some (.branch true), s)
  else if tok = "`elsif" then (tok, some (.branch (p.find t name)), t)
  else if tok = "`ifdef" then (tok, some (.opens (p.find t name)), t)
  else if tok = "`ifndef" then (tok, some (.opens (!p.find t name)), t)
  else (tok, none, s)

/-- One round of the loop, which ends with a result or goes on. -/
def round (s : S) (l : Levels) : Except Error S ⊕ S × Levels :=
  if p.more s then
    match p.read s with
    | (tok, some d, s) =>
      match l.apply d with
      | none => .inl (.error (.outside tok))
      | some l => .inr (s, l)
    | (tok, none, s) =>
      if l.failLevel > 0 then .inr (if tok = "\n" then p.push tok s else s, l)
      else
        match p.process tok s with
        | none => .inl (.error .process)
        | some s => .inr (s, l)
  else if l.failLevel > 0 || l.passLevel > 0 then .inl (.error .unterminated)
  else .inl (.ok s)

/-- The loop; `none` says that it goes on after `fuel` rounds. -/
def loop : Nat → S → Levels → Option (Except Error S)
  | 0, _, _ => none
  | fuel + 1, s, l =>
    match round p s l with
    | .inl result => some result
    | .inr (s, l) => loop fuel s l

def preproc (fuel : Nat) (s : S) : Option (Except Error S) := loop p fuel s {}

/-- The truth of the conditions of a group, at the present branch and at those before it. -/
structure Group where
  here : Bool
  earlier : List Bool := []

/-- The present branch is the first one whose condition held. -/
def Group.Selected (g : Group) : Prop := g.here = true ∧ true ∉ g.earlier

/-- What a directive makes of the groups around it, innermost first. -/
def nest : List Group → Directive → Option (List Group)
  | stack, .opens holds => some ({ here := holds } :: stack)
  | [], _ => none
  | g :: outer, .branch holds => some (⟨holds, g.here :: g.earlier⟩ :: outer)
  | _ :: outer, .endif => some outer

/-- The token in front is a conditional directive; its condition is that of the definitions when it
is reached. -/
inductive Reads (s : S) : String → Directive → S → Prop
  | ifdef {t u : S} {name : String} (tok : p.nextToken s = ("`ifdef", t))
      (symbol : p.nextName t = (name, u)) : Reads s "`ifdef" (.opens (p.find u name)) u
  | ifndef {t u : S} {name : String} (tok : p.nextToken s = ("`ifndef", t))
      (symbol : p.nextName t = (name, u)) : Reads s "`ifndef" (.opens (!p.find u name)) u
  | elsif {t u : S} {name : String} (tok : p.nextToken s = ("`elsif", t))
      (symbol : p.nextName t = (name, u)) : Reads s "`elsif" (.branch (p.find u name)) u
  | else {t : S} (tok : p.nextToken s = ("`else", t)) : Reads s "`else" (.branch true) t
  | endif {t : S} (tok : p.nextToken s = ("`endif", t)) : Reads s "`endif" .endif t

def keywords : List String := ["`endif", "`else", "`elsif", "`ifdef", "`ifndef"]

/-- What a preprocessor that keeps the groups around each place makes of the text from there on, and
the directives it meets. A token is processed when every group around it is selected, and else
leaves nothing but a newline. -/
inductive Selects : S → List Group → List Directive → Except Error S → Prop
  | finished {s : S} (last : p.more s = false) : Selects s [] [] (.ok s)
  | unterminated {s : S} {g : Group} {outer : List Group} (last : p.more s = false) :
      Selects s (g :: outer) [] (.error .unterminated)
  | nested {s t : S} {tok : String} {d : Directive} {stack inner : List Group} {met : List Directive}
      {r : Except Error S} (more : p.more s = true) (reads : Reads p s tok d t)
      (next : nest stack d = some inner) (rest : Selects t inner met r) : Selects s stack (d :: met) r
  | outside {s t : S} {tok : String} {d : Directive} {stack : List Group} (more : p.more s = true)
      (reads : Reads p s tok d t) (next : nest stack d = none) :
      Selects s stack [d] (.error (.outside tok))
  | processed {s t u : S} {tok : String} {stack : List Group} {met : List Directive}
      {r : Except Error S} (more : p.more s = true) (token : p.nextToken s = (tok, t))
      (plain : tok ∉ keywords) (selected : ∀ g ∈ stack, g.Selected)
      (done : p.process tok t = some u) (rest : Selects u stack met r) : Selects s stack met r
  | failed {s t : S} {tok : String} {stack : List Group} (more : p.more s = true)
      (token : p.nextToken s = (tok, t)) (plain : tok ∉ keywords)
      (selected : ∀ g ∈ stack, g.Selected) (done : p.process tok t = none) :
      Selects s stack [] (.error .process)
  | skipped {s t : S} {tok : String} {stack : List Group} {g : Group} {met : List Directive}
      {r : Except Error S} (more : p.more s = true) (token : p.nextToken s = (tok, t))
      (plain : tok ∉ keywords) (around : g ∈ stack) (other : ¬ g.Selected)
      (rest : Selects (if tok = "\n" then p.push tok t else t) stack met r) : Selects s stack met r

/-- A run ends with an error for a directive outside of all groups, for a group that stays open,
or where a token is processed; and else without one. -/
def Ends (nesting : Option (List Group)) : Except Error S → Prop
  | .ok _ => nesting = some []
  | .error .unterminated => ∃ g outer, nesting = some (g :: outer)
  | .error (.outside _) => nesting = none
  | .error .process => nesting.isSome

private theorem Selects.ends {s : S} {stack : List Group} {met : List Directive} {r : Except Error S}
    (run : Selects p s stack met r) : Ends (met.foldlM nest stack) r := by
  induction run with
  | finished => rfl
  | unterminated => exact ⟨_, _, rfl⟩
  | nested _ _ next _ ih => simpa [next] using ih
  | outside _ _ next => simp [next, Ends]
  | processed _ _ _ _ _ _ ih => exact ih
  | failed => rfl
  | skipped _ _ _ _ _ _ ih => exact ih

variable (g : Group)

def Group.selected : Bool := g.here && g.earlier.all (!·)

def Group.satisfied : Bool := g.here || g.earlier.any (·)

private theorem Group.selected_iff : g.selected = true ↔ g.Selected := by
  simp only [selected, Selected, Bool.and_eq_true, List.all_eq_true, Bool.not_eq_true']
  refine and_congr_right fun _ => ⟨fun all held => Bool.noConfusion (all true held), fun held b member => ?_⟩
  cases b with
  | false => rfl
  | true => exact absurd member held

/-- The levels inside of a further group; the flag is that of the outermost group that fails. -/
def Levels.enter (l : Levels) : Levels :=
  if l.failLevel > 0 then { l with failLevel := l.failLevel + 1 }
  else if g.selected then { l with passLevel := l.passLevel + 1 }
  else ⟨1, l.passLevel, g.satisfied⟩

def ofGroups (stack : List Group) : Levels := stack.foldr Levels.enter {}

/-- The counters are those of the groups, and so is the flag while a group fails. -/
def Represents (l : Levels) (stack : List Group) : Prop :=
  l.failLevel = (ofGroups stack).failLevel ∧ l.passLevel = (ofGroups stack).passLevel ∧
    (l.failLevel > 0 → l.alreadySatisfied = (ofGroups stack).alreadySatisfied)

@[simp] theorem ofGroups_cons (stack : List Group) :
    ofGroups (g :: stack) = (ofGroups stack).enter g := rfl

private theorem ofGroups_levels (stack : List Group) :
    ((ofGroups stack).failLevel > 0 ↔ stack.all Group.selected = false) ∧
      (ofGroups stack).failLevel + (ofGroups stack).passLevel = stack.length := by
  induction stack with
  | nil => simp [ofGroups]
  | cons g stack ih =>
    obtain ⟨failing, length⟩ := ih
    cases all : stack.all Group.selected <;> cases here : g.selected <;>
      simp_all [Levels.enter] <;> omega

@[simp] theorem selected_next (holds : Bool) :
    Group.selected ⟨holds, g.here :: g.earlier⟩ = (holds && !g.satisfied) := by
  simp [Group.selected, Group.satisfied, List.all_eq_not_any_not]

@[simp] theorem satisfied_next (holds : Bool) :
    Group.satisfied ⟨holds, g.here :: g.earlier⟩ = (holds || g.satisfied) := by
  simp [Group.satisfied]

theorem Group.satisfied_of_selected {g : Group} (h : g.selected = true) : g.satisfied = true := by
  simp only [selected, Bool.and_eq_true] at h
  simp [satisfied, h.1]

section

variable {l : Levels} {g : Group} {stack : List Group}

private theorem Represents.opens (rel : Represents l stack) (holds : Bool) :
    Represents (l.opens holds) ({ here := holds } :: stack) := by
  obtain ⟨fail, pass, flag⟩ := rel
  by_cases failing : l.failLevel > 0
  · have deeper : l.failLevel ≠ 0 := by omega
    simp [Represents, Levels.opens, Levels.enter, ← fail, deeper, failing, pass, flag failing]
  · cases holds <;>
      simp_all [Represents, Levels.opens, Levels.enter, Group.selected, Group.satisfied]

private theorem Represents.branch (rel : Represents l (g :: stack)) (holds : Bool) :
    ∃ l', l.branch holds = some l' ∧ Represents l' (⟨holds, g.here :: g.earlier⟩ :: stack) := by
  by_cases failing : (ofGroups stack).failLevel > 0
  · have deeper : (ofGroups stack).failLevel ≠ 0 := by omega
    simp_all [Represents, Levels.branch, Levels.enter]
  · cases here : g.selected with
    | false =>
      cases holds <;> cases taken : g.satisfied <;>
        simp_all [Represents, Levels.branch, Levels.enter]
    | true =>
      have taken := Group.satisfied_of_selected here
      simp_all [Represents, Levels.branch, Levels.enter]

private theorem Represents.endif (rel : Represents l (g :: stack)) :
    ∃ l', l.endif = some l' ∧ Represents l' stack := by
  by_cases failing : (ofGroups stack).failLevel > 0
  · simp_all [Represents, Levels.endif, Levels.enter]
  · cases here : g.selected <;> simp_all [Represents, Levels.endif, Levels.enter]

section

variable (rel : Represents l stack)

include rel

private theorem Represents.apply (d : Directive) :
    Option.Rel Represents (l.apply d) (nest stack d) := by
  cases d with
  | opens holds => exact .some (rel.opens holds)
  | branch holds =>
    cases stack with
    | nil =>
      have none : l.branch holds = none := by simp_all [Represents, ofGroups, Levels.branch]
      simpa only [Levels.apply, none] using .none
    | cons g stack =>
      obtain ⟨l', next, rel⟩ := rel.branch holds
      simpa only [Levels.apply, next] using .some rel
  | endif =>
    cases stack with
    | nil =>
      have none : l.endif = none := by simp_all [Represents, ofGroups, Levels.endif]
      simpa only [Levels.apply, none] using .none
    | cons g stack =>
      obtain ⟨l', next, rel⟩ := rel.endif
      simpa only [Levels.apply, next] using .some rel

theorem Represents.apply_eq_none {d : Directive} : l.apply d = none ↔ nest stack d = none := by
  have next := rel.apply d
  generalize l.apply d = x, nest stack d = y at next
  cases next <;> simp

theorem Represents.apply_eq_some {d : Directive} {inner : List Group} (next : nest stack d = some inner) :
    ∃ l', l.apply d = some l' ∧ Represents l' inner := by
  have related := rel.apply d
  rw [next] at related
  generalize l.apply d = x at related
  cases related with
  | some rel => exact ⟨_, rfl, rel⟩

private theorem Represents.passes_iff : l.failLevel > 0 ↔ ∃ g ∈ stack, ¬ g.Selected := by
  rw [rel.1, (ofGroups_levels stack).1]
  simp [← Group.selected_iff]

theorem Represents.isOpen_iff : (l.failLevel > 0 || l.passLevel > 0) = true ↔ stack ≠ [] := by
  have length := (ofGroups_levels stack).2
  rw [← rel.1, ← rel.2.1] at length
  cases stack <;> simp_all
  omega

end

end

variable {p}

private theorem read_eq_some {s t : S} {tok : String} {d : Directive} :
    p.read s = (tok, some d, t) ↔ Reads p s tok d t := by
  constructor
  · intro read
    unfold Preproc.read at read
    rcases token : p.nextToken s with ⟨tok', s'⟩
    rcases symbol : p.nextName s' with ⟨name, u⟩
    simp only [token, symbol] at read
    split_ifs at read with keyword keyword keyword keyword keyword <;> cases read <;> subst keyword
    · exact .endif token
    · exact .else token
    · exact .elsif token symbol
    · exact .ifdef token symbol
    · exact .ifndef token symbol
  · intro reads
    cases reads with
    | ifdef tok symbol => simp [Preproc.read, tok, symbol]
    | ifndef tok symbol => simp [Preproc.read, tok, symbol]
    | elsif tok symbol => simp [Preproc.read, tok, symbol]
    | «else» tok => simp [Preproc.read, tok]
    | endif tok => simp [Preproc.read, tok]

private theorem read_eq_none {s t : S} {tok : String} :
    p.read s = (tok, none, t) ↔ p.nextToken s = (tok, t) ∧ tok ∉ keywords := by
  unfold Preproc.read keywords
  rcases token : p.nextToken s with ⟨tok', s'⟩
  simp only [List.mem_cons, List.not_mem_nil, or_false, Prod.mk.injEq]
  split_ifs <;> simp_all
  rintro rfl -
  simp_all

variable {l : Levels} {stack : List Group} {s : S} {r : Except Error S}

theorem loop_selects {fuel : Nat} (rel : Represents l stack) (run : loop p fuel s l = some r) :
    ∃ met, Selects p s stack met r := by
  induction fuel generalizing s l stack with
  | zero => cases run
  | succ fuel ih =>
    rw [loop, round] at run
    by_cases more : p.more s = true
    · rw [if_pos more] at run
      rcases read : p.read s with ⟨tok, _ | d, t⟩
      · obtain ⟨token, plain⟩ := read_eq_none.mp read
        by_cases fails : l.failLevel > 0
        · obtain ⟨g, around, other⟩ := rel.passes_iff.mp fails
          simp only [read, if_pos fails] at run
          obtain ⟨met, rest⟩ := ih rel run
          exact ⟨met, .skipped more token plain around other rest⟩
        · have selected : ∀ g ∈ stack, g.Selected := by
            simpa using mt rel.passes_iff.mpr fails
          cases done : p.process tok t with
          | none =>
            simp only [read, if_neg fails, done, Option.some.injEq] at run
            subst run
            exact ⟨[], .failed more token plain selected done⟩
          | some u =>
            simp only [read, if_neg fails, done] at run
            obtain ⟨met, rest⟩ := ih rel run
            exact ⟨met, .processed more token plain selected done rest⟩
      · have reads := read_eq_some.mp read
        cases next : nest stack d with
        | none =>
          simp only [read, rel.apply_eq_none.mpr next, Option.some.injEq] at run
          subst run
          exact ⟨[d], .outside more reads next⟩
        | some inner =>
          obtain ⟨l', applied, rel'⟩ := rel.apply_eq_some next
          simp only [read, applied] at run
          obtain ⟨met, rest⟩ := ih rel' run
          exact ⟨d :: met, .nested more reads next rest⟩
    · have last := Bool.not_eq_true _ ▸ more
      rw [if_neg more] at run
      cases stack with
      | nil =>
        rw [if_neg (by simpa using rel.isOpen_iff)] at run
        obtain rfl := Option.some.inj run
        exact ⟨[], .finished last⟩
      | cons g outer =>
        rw [if_pos (rel.isOpen_iff.mpr (by simp))] at run
        obtain rfl := Option.some.inj run
        exact ⟨[], .unterminated last⟩

private theorem Selects.loop {met : List Directive} (run : Selects p s stack met r)
    (rel : Represents l stack) : ∃ fuel, loop p fuel s l = some r := by
  induction run generalizing l with
  | finished last =>
    have closed := mt rel.isOpen_iff.mp (not_not_intro rfl)
    exact ⟨1, by simp only [PreprocConditionals.loop, round, last, if_neg closed]; rfl⟩
  | unterminated last =>
    exact ⟨1, by simp [PreprocConditionals.loop, round, last, rel.isOpen_iff]⟩
  | nested more reads next _ ih =>
    obtain ⟨l', applied, rel'⟩ := rel.apply_eq_some next
    obtain ⟨fuel, run⟩ := ih rel'
    exact ⟨fuel + 1, by simp [PreprocConditionals.loop, round, more, read_eq_some.mpr reads, applied, run]⟩
  | outside more reads next =>
    exact ⟨1, by simp [PreprocConditionals.loop, round, more, read_eq_some.mpr reads,
      rel.apply_eq_none.mpr next]⟩
  | processed more token plain selected done _ ih =>
    have passes : ¬ _ := mt rel.passes_iff.mp (by simpa using selected)
    obtain ⟨fuel, run⟩ := ih rel
    exact ⟨fuel + 1, by
      simp [PreprocConditionals.loop, round, more, read_eq_none.mpr ⟨token, plain⟩, if_neg passes, done, run]⟩
  | failed more token plain selected done =>
    have passes : ¬ _ := mt rel.passes_iff.mp (by simpa using selected)
    exact ⟨1, by
      simp [PreprocConditionals.loop, round, more, read_eq_none.mpr ⟨token, plain⟩, if_neg passes, done]⟩
  | skipped more token plain around other _ ih =>
    have fails := rel.passes_iff.mpr ⟨_, around, other⟩
    obtain ⟨fuel, run⟩ := ih rel
    exact ⟨fuel + 1, by
      simp [PreprocConditionals.loop, round, more, read_eq_none.mpr ⟨token, plain⟩, if_pos fails, run]⟩

/-- The loop with its counters ends as the preprocessor with the groups does, and the errors of the
conditionals are those of the nesting of the directives. -/
theorem preproc_selects (p : Preproc S) (s : S) (r : Except Error S) :
    ((∃ fuel, preproc p fuel s = some r) ↔ ∃ met, Selects p s [] met r) ∧
      ∀ met, Selects p s [] met r → Ends (met.foldlM nest []) r := by
  have rel : Represents {} [] := ⟨rfl, rfl, fun _ => rfl⟩
  refine ⟨⟨?_, ?_⟩, fun met run => run.ends⟩
  · rintro ⟨fuel, run⟩
    exact loop_selects rel run
  · rintro ⟨met, run⟩
    exact run.loop rel

/-- A text of tokens with the names that are defined; `resetall` undefines them. -/
structure Text where
  input : List String
  defined : List String
  output : List String := []
  deriving DecidableEq

def tokens : Preproc Text where
  more s := !s.input.isEmpty
  nextToken s := (s.input.headD "", { s with input := s.input.tail })
  nextName s := (s.input.headD "", { s with input := s.input.tail })
  find s name := name ∈ s.defined
  push tok s := { s with output := s.output ++ [tok] }
  process tok s :=
    if tok = "`resetall" then some { s with defined := [] }
    else some { s with output := s.output ++ [tok] }

def nestedText : Text where
  input := ["`ifdef", "A", "a", "\n", "`elsif", "B", "b", "`resetall", "`ifndef", "B", "c", "`else", "d",
    "`endif", "`else", "`ifdef", "A", "e", "`endif", "f", "`endif", "g"]
  defined := ["B"]

/-- The branch of `B` is taken, and inside of it `B` is no longer defined. -/
theorem preproc_selects_nested :
    ∃ met, Selects tokens nestedText [] met (.ok ⟨[], [], ["\n", "b", "c", "g"]⟩) ∧
      met.foldlM nest [] = some [] := by
  have run : preproc tokens 30 nestedText = some (.ok ⟨[], [], ["\n", "b", "c", "g"]⟩) := by rfl
  obtain ⟨ends, errors⟩ := preproc_selects tokens nestedText (.ok ⟨[], [], ["\n", "b", "c", "g"]⟩)
  obtain ⟨met, selects⟩ := ends.mp ⟨30, run⟩
  exact ⟨met, selects, errors met selects⟩

end ManticoreFrontend.Frontends.PreprocConditionals
