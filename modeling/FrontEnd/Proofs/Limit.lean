import FrontEnd.Proofs.Recovery
import FrontEnd.Proofs.Termination

/-!
# The nesting limit only cuts off

Two runs that differ in nothing but the number of levels open at their beginning go side by side,
state by state, until one of them needs a level that it has not. No other step of an expression asks
how many levels are open, and nothing that is read hands on anything but its result or its error; so
the run that is short of a level ends at once, where the other goes on.

* `Parser.withDepth` — a parser with that many levels open.
* `Script.Blind` — a script that does not ask how many levels are open, and hands on every error.
* `Script.CutOff` — what becomes of a run if more levels are open from its beginning. There is one
  such lemma for every way that a run can go on.
* `Script.Opens` — a run with the most expressions that it has open at once; `Parser.mostOpen`
  counts the levels instead.

Principal results: `Procedure.body_blind` (whatever belongs to an expression, but for the expression
itself, is blind), `Script.Blind.runs_induction` (the runs of blind scripts), `Script.Blind.cutOff`
(the runs side by side), `Script.Blind.exists_opens` (open levels are open expressions) and
`Parser.parseExpression_deeper`.
-/

namespace FrontEnd

open Script Procedure

variable {α β : Type}

namespace Parser

def withDepth (p : Parser) (depth : Nat) : Parser := { p with depth := depth }

@[simp] theorem withDepth_depth (p : Parser) (depth : Nat) :
    (p.withDepth depth).depth = depth := rfl

@[simp] theorem withDepth_withDepth (p : Parser) (d d' : Nat) :
    (p.withDepth d).withDepth d' = p.withDepth d' := rfl

def tooDeep (p : Parser) : Diagnostic :=
  ⟨.nestingTooDeep maxNesting, p.tokens.current.span.start⟩

theorem enterNesting_perform_of_lt {p : Parser} (h : p.depth < maxNesting) :
    Action.enterNesting.perform p = (.ok (), p.withDepth (p.depth + 1)) := by
  simp only [Action.perform, enterNesting, if_pos h]
  rfl

theorem enterNesting_perform_of_le {p : Parser} (h : maxNesting ≤ p.depth) :
    Action.enterNesting.perform p = (.error p.tooDeep, p) := by
  simp only [Action.perform, enterNesting, if_neg (Nat.not_lt.2 h)]
  rfl

theorem exitNesting_perform {p : Parser} {depth : Nat} (h : p.depth = depth + 1) :
    Action.exitNesting.perform p = (.ok (), p.withDepth depth) := by
  show (_, p.withDepth (p.depth - 1)) = _
  rw [h, Nat.add_sub_cancel]

end Parser

/-! ## Scripts that do not ask for the depth -/

def Action.moves : Action → Bool
  | .advance | .expectPeek _ => true
  | _ => false

theorem Action.perform_withDepth {action : Action} (h : action.moves = true) (p : Parser)
    (depth : Nat) :
    action.perform (p.withDepth depth) =
      ((action.perform p).1, (action.perform p).2.withDepth depth) := by
  cases action with
  | advance | expectPeek => rfl
  | _ => cases h

theorem Action.perform_depth {action : Action} (h : action.moves = true) (p : Parser) :
    (action.perform p).2.depth = p.depth := by
  cases action with
  | advance | expectPeek => rfl
  | _ => cases h

def Procedure.inExpression : Procedure → Bool
  | expression _ | nested _ | beginning _ | continuing .. | climbing .. => true
  | _ => false

namespace Script

/-- The script does not ask how many levels are open, opens and closes none by itself, and hands on
every error of what it calls. -/
inductive Blind : Script α → Prop where
  | answer (result : Except Diagnostic α) : Blind (.answer result)
  | look {go : Parser → Script α} (hgo : ∀ p depth, go (p.withDepth depth) = go p)
    (h : ∀ p, Blind (go p)) : Blind (.look go)
  | act {action : Action} {go : Except Diagnostic Unit → Script α} (haction : action.moves = true)
    (h : ∀ result, Blind (go result)) : Blind (.act action go)
  | call {procedure : Procedure} {go : Except Diagnostic procedure.Answer → Script α}
    (hprocedure : procedure.inExpression = true) (herror : ∀ d, go (.error d) = .answer (.error d))
    (h : ∀ a, Blind (go (.ok a))) : Blind (.call procedure go)

namespace Blind

theorem pure (a : α) : Blind (pure a : Script α) := .answer _

theorem fail (d : Diagnostic) : Blind (fail d : Script α) := .answer _

theorem state_bind {f : Parser → Script β} (hf : ∀ p depth, f (p.withDepth depth) = f p)
    (h : ∀ p, (f p).Blind) : (state >>= f).Blind :=
  .look hf h

theorem advance_bind {f : Unit → Script β} (h : (f ()).Blind) :
    (Script.perform .advance >>= f).Blind :=
  .act rfl fun
    | .ok _ => h
    | .error _ => .answer _

theorem expectPeek_bind {kind : TokenKind} {f : Unit → Script β} (h : (f ()).Blind) :
    (Script.perform (.expectPeek kind) >>= f).Blind :=
  .act rfl fun
    | .ok _ => h
    | .error _ => .answer _

theorem run {procedure : Procedure} (hprocedure : procedure.inExpression = true) :
    (run procedure).Blind :=
  .call hprocedure (fun _ => rfl) fun _ => .answer _

theorem run_bind {procedure : Procedure} {f : procedure.Answer → Script β}
    (hprocedure : procedure.inExpression = true) (h : ∀ a, (f a).Blind) :
    (Script.run procedure >>= f).Blind :=
  .call hprocedure (fun _ => rfl) h

end Blind

end Script

/-- Of all that is done in the course of an expression, only its opening and closing a level of its
own asks how many are open. -/
theorem Procedure.body_blind {procedure : Procedure} (h : procedure.inExpression = true)
    (hexpression : ∀ cutoff, procedure ≠ expression cutoff) : procedure.body.Blind := by
  cases procedure with
  | expression cutoff => exact absurd rfl (hexpression cutoff)
  | nested cutoff =>
    refine .state_bind (fun _ _ => rfl) fun p => ?_
    dsimp only
    cases p.tables.prefixRule p.tokens.current.kind with
    | none => exact .fail _
    | some rule => exact .run_bind rfl fun left => .run rfl
  | beginning rule =>
    cases rule with
    | identifier | boolean => exact .state_bind (fun _ _ => rfl) fun _ => .pure _
    | integer =>
      refine .state_bind (fun _ _ => rfl) fun p => ?_
      dsimp only
      cases literalValue? p.tokens.current.text with
      | some value => exact .pure _
      | none => exact .fail _
    | unary =>
      refine .state_bind (fun _ _ => rfl) fun p => .advance_bind ?_
      exact .run_bind rfl fun right => .pure _
    | grouping =>
      exact .advance_bind (.run_bind rfl fun inner => .expectPeek_bind (.pure _))
  | continuing rule left power =>
    refine .state_bind (fun _ _ => rfl) fun p => .advance_bind ?_
    exact .run_bind rfl fun right => .pure _
  | climbing cutoff left =>
    rw [Parser.climbing_body]
    refine .state_bind (fun _ _ => rfl) fun p => ?_
    cases p.tables.operatorAbove? cutoff p.tokens.peek.kind with
    | none => exact .pure _
    | some op =>
      refine .advance_bind (.state_bind (fun _ _ => rfl) fun p => ?_)
      exact .run_bind rfl fun left' => .run rfl
  | _ => cases h

/-! ## The runs of blind scripts -/

namespace Script

variable {x : Script α} {p q r : Parser} {moments moments' : List Parser}

namespace Runs

variable {cutoff : BindingPower} {go : Except Diagnostic Expr → Script α}
  {result : Except Diagnostic Expr} {result' : Except Diagnostic α}

theorem handed_on {go : Except Diagnostic β → Script α}
    (herror : ∀ d, go (.error d) = .answer (.error d)) (d : Diagnostic) (p : Parser) :
    (go (.error d)).Runs p (.error d) p [] := by
  rw [herror]
  exact .answer _ _

/-- A call of an expression for which there is a level left. -/
theorem opened (h : p.depth < maxNesting)
    (hnested : (nested cutoff).body.Runs (p.withDepth (p.depth + 1)) result q moments)
    (hq : q.depth = p.depth + 1)
    (hgo : (go result).Runs (q.withDepth p.depth) result' r moments') :
    Runs (.call (expression cutoff) go) p result' r
      (p.withDepth (p.depth + 1) :: moments ++ q.withDepth p.depth :: moments') := by
  have hbody : (expression cutoff).body.Runs p result (q.withDepth p.depth)
      ([p.withDepth (p.depth + 1)] ++ (moments ++ [q.withDepth p.depth])) :=
    (Runs.perform (Parser.enterNesting_perform_of_lt h)).bind
      (.call hnested ((Runs.perform (Parser.exitNesting_perform hq)).bind (.answer _ _)))
  simpa using Runs.call hbody hgo

/-- A call of an expression for which there is no level left. -/
theorem refused (h : maxNesting ≤ p.depth)
    (herror : ∀ d, go (.error d) = .answer (.error d)) :
    Runs (.call (expression cutoff) go) p (.error p.tooDeep) p [p] := by
  have hbody : (expression cutoff).body.Runs p (.error p.tooDeep) p [p] :=
    (Runs.perform (Parser.enterNesting_perform_of_le h)).bind_error
  exact .call hbody (handed_on herror _ _)

/-- An expression ends at once, or it runs in a level of its own. -/
theorem of_expression (h : (expression cutoff).body.Runs p result q moments) :
    (maxNesting ≤ p.depth ∧ result = .error p.tooDeep ∧ q = p ∧ moments = [p]) ∨
      p.depth < maxNesting ∧ ∃ q' moments',
        (nested cutoff).body.Runs (p.withDepth (p.depth + 1)) result q' moments' ∧
        q = q'.withDepth (q'.depth - 1) ∧
        moments = p.withDepth (p.depth + 1) :: moments' ++ [q] := by
  by_cases hdepth : p.depth < maxNesting
  · right
    have henter := Runs.perform (Parser.enterNesting_perform_of_lt hdepth)
    obtain ⟨_, hcall, rfl⟩ := henter.of_bind h
    cases hcall with
    | call hnested hgo =>
      have hexit {q'} : Runs (.perform .exitNesting) q' (.ok ()) q'.exitNesting [q'.exitNesting] :=
        Runs.perform rfl
      obtain ⟨_, hanswer, rfl⟩ := hexit.of_bind hgo
      cases hanswer
      exact ⟨hdepth, _, _, hnested, rfl, rfl⟩
  · left
    have hdepth := Nat.le_of_not_lt hdepth
    have hrefused : (expression cutoff).body.Runs p (.error p.tooDeep) p [p] :=
      (Runs.perform (Parser.enterNesting_perform_of_le hdepth)).bind_error
    obtain ⟨rfl, rfl, rfl⟩ := h.unique hrefused
    exact ⟨hdepth, rfl, rfl, rfl⟩

end Runs

/-- What holds of all the runs of blind scripts, by the ways that such a run can go on: a called
expression is refused, or it runs in a level of its own, and everything else leaves the level as it
is. -/
theorem Blind.runs_induction
    {motive : {α : Type} → Script α → Parser → Except Diagnostic α → Parser → List Parser → Prop}
    (answer : ∀ {α : Type} (result : Except Diagnostic α) (p : Parser),
      motive (.answer result) p result p [])
    (look : ∀ {α : Type} {go : Parser → Script α} {p q : Parser} {result : Except Diagnostic α}
      {moments : List Parser}, (∀ p depth, go (p.withDepth depth) = go p) →
      motive (go p) p result q moments → motive (.look go) p result q moments)
    (act : ∀ {α : Type} {action : Action} {go : Except Diagnostic Unit → Script α} {p q : Parser}
      {result : Except Diagnostic α} {moments : List Parser}, action.moves = true →
      motive (go (action.perform p).1) (action.perform p).2 result q moments →
      motive (.act action go) p result q ((action.perform p).2 :: moments))
    (call : ∀ {α : Type} {procedure : Procedure}
      {go : Except Diagnostic procedure.Answer → Script α} {p q r : Parser}
      {result : Except Diagnostic procedure.Answer} {result' : Except Diagnostic α}
      {moments moments' : List Parser}, (∀ cutoff, procedure ≠ expression cutoff) →
      (∀ d, go (.error d) = .answer (.error d)) → q.depth = p.depth →
      motive procedure.body p result q moments → motive (go result) q result' r moments' →
      motive (.call procedure go) p result' r (moments ++ moments'))
    (refused : ∀ {α : Type} {cutoff : BindingPower} {go : Except Diagnostic Expr → Script α}
      {p : Parser}, (∀ d, go (.error d) = .answer (.error d)) → maxNesting ≤ p.depth →
      motive (.call (expression cutoff) go) p (.error p.tooDeep) p [p])
    (opened : ∀ {α : Type} {cutoff : BindingPower} {go : Except Diagnostic Expr → Script α}
      {p q r : Parser} {result : Except Diagnostic Expr} {result' : Except Diagnostic α}
      {moments moments' : List Parser}, (∀ d, go (.error d) = .answer (.error d)) →
      p.depth < maxNesting → q.depth = p.depth + 1 →
      motive (nested cutoff).body (p.withDepth (p.depth + 1)) result q moments →
      motive (go result) (q.withDepth p.depth) result' r moments' →
      motive (.call (expression cutoff) go) p result' r
        (p.withDepth (p.depth + 1) :: moments ++ q.withDepth p.depth :: moments'))
    {result : Except Diagnostic α} (hx : x.Blind) (h : x.Runs p result q moments) :
    q.depth = p.depth ∧ motive x p result q moments := by
  -- in a level of its own, an expression has fewer levels left; in one level, the run gets shorter
  induction hn : maxNesting - p.depth using Nat.strongRecOn generalizing α x p result q moments with
  | ind n ihlevel =>
    induction h with
    | answer result p => exact ⟨rfl, answer result p⟩
    | look h ih =>
      cases hx with
      | look hgo hx =>
        obtain ⟨hdepth, hmotive⟩ := ih (hx _) hn
        exact ⟨hdepth, look hgo hmotive⟩
    | @act _ action _ p _ _ _ h ih =>
      cases hx with
      | act haction hx =>
        have hsame := Action.perform_depth haction p
        obtain ⟨hdepth, hmotive⟩ := ih (hx _) (by rw [hsame]; exact hn)
        exact ⟨hdepth.trans hsame, act haction hmotive⟩
    | @call _ procedure go p q r result _ _ _ h hgo ih ihgo =>
      cases hx with
      | call hprocedure herror hx =>
        have hblind : (go result).Blind := by
          cases result with
          | ok a => exact hx a
          | error d => exact herror d ▸ .answer _
        by_cases hexpression : ∃ cutoff, procedure = expression cutoff
        · obtain ⟨cutoff, rfl⟩ := hexpression
          rcases h.of_expression with ⟨hdepth, rfl, rfl, rfl⟩ | ⟨hdepth, q', _, hnested, rfl, rfl⟩
          · rw [herror] at hgo
            cases hgo
            exact ⟨rfl, refused herror hdepth⟩
          · have hbody := (nested cutoff).body_blind rfl (by simp)
            obtain ⟨hq, hmotive⟩ := ihlevel _ (by simp; omega) hbody hnested rfl
            have hq : q'.depth = p.depth + 1 := hq
            rw [hq, Nat.add_sub_cancel] at hgo ihgo ⊢
            obtain ⟨hr, hmotive'⟩ := ihgo hblind hn
            refine ⟨hr, ?_⟩
            simpa using opened herror hdepth hq hmotive hmotive'
        · have hnot : ∀ cutoff, procedure ≠ expression cutoff :=
            fun cutoff heq => hexpression ⟨cutoff, heq⟩
          obtain ⟨hq, hmotive⟩ := ih (procedure.body_blind hprocedure hnot) hn
          obtain ⟨hr, hmotive'⟩ := ihgo hblind (by rw [hq]; exact hn)
          exact ⟨hr.trans hq, call hnot herror hq hmotive hmotive'⟩

end Script

/-! ## Two runs, one deeper than the other -/

def NestsTooDeep (result : Except Diagnostic α) : Prop :=
  ∃ d, result = .error d ∧ d.cause.TooDeep

theorem Parser.nestsTooDeep_tooDeep (p : Parser) :
    NestsTooDeep (.error p.tooDeep : Except Diagnostic α) :=
  ⟨_, rfl, _, rfl⟩

/-- Whether the state is beyond the limit, if that many levels more are open. -/
def Parser.overflows (extra : Nat) (p : Parser) : Bool := maxNesting < p.depth + extra

/-- What becomes of a run if that many levels more are open from its beginning: it is the same, or
it ends at the first state that is then beyond the limit, where all the levels that it opened are
closed again. -/
structure Script.CutOff (extra : Nat) (x : Script α) (p : Parser) (result : Except Diagnostic α)
    (q : Parser) (moments : List Parser) : Prop where
  same : moments.find? (Parser.overflows extra) = none →
    ∃ moments', x.Runs (p.withDepth (p.depth + extra)) result (q.withDepth (q.depth + extra))
      moments'
  short : ∀ m, moments.find? (Parser.overflows extra) = some m →
    m.depth + extra = maxNesting + 1 ∧
      ∃ moments', x.Runs (p.withDepth (p.depth + extra)) (.error m.tooDeep)
        (m.withDepth (p.depth + extra)) moments'

theorem Parser.overflows_of_le {extra : Nat} {p : Parser} (h : p.depth + extra ≤ maxNesting) :
    p.overflows extra = false :=
  decide_eq_false (Nat.not_lt.2 h)

namespace Script

variable {extra : Nat} {x : Script α} {p q r : Parser} {moments moments' : List Parser}

namespace CutOff

variable {result result' : Except Diagnostic α}

theorem answer (result : Except Diagnostic α) (p : Parser) :
    CutOff extra (.answer result) p result p [] :=
  ⟨fun _ => ⟨_, .answer _ _⟩, nofun⟩

theorem look {go : Parser → Script α} (hgo : ∀ p depth, go (p.withDepth depth) = go p)
    (h : CutOff extra (go p) p result q moments) :
    CutOff extra (.look go) p result q moments := by
  obtain ⟨hsame, hshort⟩ := h
  rw [← hgo p (p.depth + extra)] at hsame hshort
  refine ⟨fun hnone => ?_, fun m hm => ?_⟩
  · obtain ⟨_, hruns⟩ := hsame hnone
    exact ⟨_, .look hruns⟩
  · obtain ⟨hdepth, _, hruns⟩ := hshort m hm
    exact ⟨hdepth, _, .look hruns⟩

theorem act {action : Action} {go : Except Diagnostic Unit → Script α}
    (haction : action.moves = true) (hextra : p.depth + extra ≤ maxNesting)
    (h : CutOff extra (go (action.perform p).1) (action.perform p).2 result q moments) :
    CutOff extra (.act action go) p result q ((action.perform p).2 :: moments) := by
  have hdepth := Action.perform_depth haction p
  have hfits : (action.perform p).2.overflows extra = false :=
    Parser.overflows_of_le (by rw [hdepth]; exact hextra)
  have hact : ∀ {result' q' moments'},
      (go (action.perform p).1).Runs ((action.perform p).2.withDepth (p.depth + extra)) result' q'
        moments' →
      ∃ moments'', Runs (.act action go) (p.withDepth (p.depth + extra)) result' q' moments'' := by
    intro result' q' moments' hruns
    refine ⟨_ :: moments', .act ?_⟩
    rwa [Action.perform_withDepth haction]
  obtain ⟨hsame, hshort⟩ := h
  rw [hdepth] at hsame hshort
  refine ⟨fun hnone => ?_, fun m hm => ?_⟩
  · rw [List.find?_cons_of_neg (by simp [hfits])] at hnone
    obtain ⟨_, hruns⟩ := hsame hnone
    exact hact hruns
  · rw [List.find?_cons_of_neg (by simp [hfits])] at hm
    obtain ⟨hdepth, _, hruns⟩ := hshort m hm
    exact ⟨hdepth, hact hruns⟩

theorem call {procedure : Procedure} {go : Except Diagnostic procedure.Answer → Script α}
    {result : Except Diagnostic procedure.Answer}
    (herror : ∀ d, go (.error d) = .answer (.error d)) (hq : q.depth = p.depth)
    (h : CutOff extra procedure.body p result q moments)
    (hgo : CutOff extra (go result) q result' r moments') :
    CutOff extra (.call procedure go) p result' r (moments ++ moments') := by
  obtain ⟨hsame, hshort⟩ := h
  obtain ⟨hsame', hshort'⟩ := hgo
  rw [hq] at hsame hsame' hshort'
  refine ⟨fun hnone => ?_, fun m hm => ?_⟩
  · rw [List.find?_append, Option.or_eq_none_iff] at hnone
    obtain ⟨_, hruns⟩ := hsame hnone.1
    obtain ⟨_, hruns'⟩ := hsame' hnone.2
    exact ⟨_, .call hruns hruns'⟩
  · rw [List.find?_append, Option.or_eq_some_iff] at hm
    rcases hm with hm | ⟨hnone, hm⟩
    · obtain ⟨hdepth, _, hruns⟩ := hshort m hm
      exact ⟨hdepth, _, .call hruns (.handed_on herror _ _)⟩
    · obtain ⟨_, hruns⟩ := hsame hnone
      obtain ⟨hdepth, _, hruns'⟩ := hshort' m hm
      exact ⟨hdepth, _, .call hruns hruns'⟩

variable {cutoff : BindingPower} {go : Except Diagnostic Expr → Script α}

theorem refused (herror : ∀ d, go (.error d) = .answer (.error d)) (hdepth : maxNesting ≤ p.depth)
    (hextra : p.depth + extra ≤ maxNesting) :
    CutOff extra (.call (expression cutoff) go) p (.error p.tooDeep) p [p] := by
  obtain rfl : extra = 0 := by omega
  have hfits := Parser.overflows_of_le hextra
  refine ⟨fun _ => ⟨_, .refused hdepth herror⟩, fun m hm => ?_⟩
  simp [hfits] at hm

/-- The level of the expression itself may be the first that is one too many. -/
theorem opened {result : Except Diagnostic Expr}
    (herror : ∀ d, go (.error d) = .answer (.error d)) (hextra : p.depth + extra ≤ maxNesting)
    (hq : q.depth = p.depth + 1)
    (h : p.depth + 1 + extra ≤ maxNesting →
      CutOff extra (nested cutoff).body (p.withDepth (p.depth + 1)) result q moments)
    (hgo : CutOff extra (go result) (q.withDepth p.depth) result' r moments') :
    CutOff extra (.call (expression cutoff) go) p result' r
      (p.withDepth (p.depth + 1) :: moments ++ q.withDepth p.depth :: moments') := by
  have hexit : (q.withDepth p.depth).overflows extra = false := Parser.overflows_of_le hextra
  by_cases hfits : p.depth + 1 + extra ≤ maxNesting
  · have hlevel : (p.withDepth (p.depth + extra)).depth < maxNesting := by
      rw [Parser.withDepth_depth]
      omega
    have hfind : (p.withDepth (p.depth + 1) :: moments ++ q.withDepth p.depth :: moments').find?
        (Parser.overflows extra) =
          (moments.find? (Parser.overflows extra)).or
            (moments'.find? (Parser.overflows extra)) := by
      have henter : (p.withDepth (p.depth + 1)).overflows extra = false :=
        Parser.overflows_of_le hfits
      rw [List.cons_append, List.find?_cons_of_neg (by simp [henter]), List.find?_append,
        List.find?_cons_of_neg (by simp [hexit])]
    obtain ⟨hsame, hshort⟩ := h hfits
    obtain ⟨hsame', hshort'⟩ := hgo
    simp only [Parser.withDepth_depth, Parser.withDepth_withDepth, hq,
      Nat.add_right_comm p.depth 1 extra] at hsame hshort hsame' hshort'
    refine ⟨fun hnone => ?_, fun m hm => ?_⟩
    · rw [hfind, Option.or_eq_none_iff] at hnone
      obtain ⟨_, hruns⟩ := hsame hnone.1
      obtain ⟨_, hruns'⟩ := hsame' hnone.2
      exact ⟨_, .opened hlevel hruns rfl hruns'⟩
    · rw [hfind, Option.or_eq_some_iff] at hm
      rcases hm with hm | ⟨hnone, hm⟩
      · obtain ⟨hdepth, _, hruns⟩ := hshort m hm
        exact ⟨hdepth, _, .opened hlevel hruns rfl (.handed_on herror _ _)⟩
      · obtain ⟨_, hruns⟩ := hsame hnone
        obtain ⟨hdepth, _, hruns'⟩ := hshort' m hm
        exact ⟨hdepth, _, .opened hlevel hruns rfl hruns'⟩
  · have hfind : (p.withDepth (p.depth + 1) :: moments ++ q.withDepth p.depth :: moments').find?
        (Parser.overflows extra) = some (p.withDepth (p.depth + 1)) := by
      have henter : (p.withDepth (p.depth + 1)).overflows extra = true :=
        decide_eq_true (Nat.lt_of_not_le hfits)
      rw [List.cons_append, List.find?_cons_of_pos henter]
    rw [Nat.add_right_comm] at hfits
    have hfull : maxNesting ≤ (p.withDepth (p.depth + extra)).depth := by
      rw [Parser.withDepth_depth]
      omega
    refine ⟨fun hnone => (nomatch hfind.symm.trans hnone), fun m hm => ?_⟩
    obtain rfl := Option.some.inj (hfind.symm.trans hm)
    refine ⟨?_, _, .refused hfull herror⟩
    rw [Parser.withDepth_depth]
    omega

end CutOff

/-- **A deeper run is the same, up to the first level that it has not.** -/
theorem Blind.cutOff {result : Except Diagnostic α} (hx : x.Blind)
    (h : x.Runs p result q moments) (hextra : p.depth + extra ≤ maxNesting) :
    x.CutOff extra p result q moments := by
  refine (hx.runs_induction
    (motive := fun x p result q moments => p.depth + extra ≤ maxNesting →
      x.CutOff extra p result q moments) ?answer ?look ?act ?call ?refused ?opened h).2 hextra
  case answer => exact fun result p _ => .answer result p
  case look => exact fun hgo ih hextra => .look hgo (ih hextra)
  case act =>
    intro _ action _ p _ _ _ haction ih hextra
    have hdepth := Action.perform_depth haction p
    exact .act haction hextra (ih (by rw [hdepth]; exact hextra))
  case call =>
    intro _ _ _ p q _ _ _ _ _ _ herror hq ih ihgo hextra
    exact .call herror hq (ih hextra) (ihgo (by rw [hq]; exact hextra))
  case refused => exact fun herror hdepth hextra => .refused herror hdepth hextra
  case opened => exact fun herror _ hq ih ihgo hextra => .opened herror hextra hq ih (ihgo hextra)

end Script

/-! ## How many expressions are open -/

/-- The number of expressions that a call of the procedure opens by itself. -/
def Procedure.opens : Procedure → Nat
  | expression _ => 1
  | _ => 0

/-- The script, begun in one state, ends with a result and in another state, and the number is the
most calls of expressions that were open at once on the way. -/
inductive Script.Opens : {α : Type} →
    Script α → Parser → Except Diagnostic α → Parser → Nat → Prop where
  | answer {α : Type} (result : Except Diagnostic α) (p : Parser) :
      Opens (.answer result) p result p 0
  | look {α : Type} {go : Parser → Script α} {p q : Parser} {result : Except Diagnostic α}
      {most : Nat} (h : Opens (go p) p result q most) : Opens (.look go) p result q most
  | act {α : Type} {action : Action} {go : Except Diagnostic Unit → Script α} {p q : Parser}
      {result : Except Diagnostic α} {most : Nat}
      (h : Opens (go (action.perform p).1) (action.perform p).2 result q most) :
      Opens (.act action go) p result q most
  | call {α : Type} {procedure : Procedure} {go : Except Diagnostic procedure.Answer → Script α}
      {p q r : Parser} {result : Except Diagnostic procedure.Answer}
      {result' : Except Diagnostic α} {most most' : Nat}
      (h : Opens procedure.body p result q most) (h' : Opens (go result) q result' r most') :
      Opens (.call procedure go) p result' r (max (procedure.opens + most) most')

namespace Parser

/-- The most levels beyond `depth` that are open in one of the states. -/
def mostOpen (depth : Nat) (moments : List Parser) : Nat :=
  moments.foldr (fun m most => max (m.depth - depth) most) 0

@[simp] theorem mostOpen_nil (depth : Nat) : mostOpen depth [] = 0 := rfl

@[simp] theorem mostOpen_cons (depth : Nat) (m : Parser) (moments : List Parser) :
    mostOpen depth (m :: moments) = max (m.depth - depth) (mostOpen depth moments) := rfl

@[simp] theorem mostOpen_append (depth : Nat) (moments moments' : List Parser) :
    mostOpen depth (moments ++ moments') =
      max (mostOpen depth moments) (mostOpen depth moments') := by
  induction moments with
  | nil => simp
  | cons m moments ih => simp [ih, Nat.max_assoc]

/-- A level that all the states have in common counts once. -/
theorem mostOpen_succ (depth : Nat) (moments : List Parser) :
    max 1 (mostOpen depth moments) = 1 + mostOpen (depth + 1) moments := by
  induction moments with
  | nil => rfl
  | cons m moments ih =>
    simp only [mostOpen_cons]
    omega

theorem lt_mostOpen_iff {depth most : Nat} {moments : List Parser} :
    most < mostOpen depth moments ↔ ∃ m ∈ moments, most < m.depth - depth := by
  induction moments with
  | nil => simp
  | cons m moments ih =>
    have hmax : most < max (m.depth - depth) (mostOpen depth moments) ↔
        most < m.depth - depth ∨ most < mostOpen depth moments := by omega
    simp [hmax, ih]

end Parser

namespace Script

variable {x : Script α} {p q r : Parser} {moments moments' : List Parser}

/-- A run has one count of open expressions at most. -/
theorem Opens.unique {result result' : Except Diagnostic α} {most most' : Nat}
    (h : x.Opens p result q most) (h' : x.Opens p result' r most') :
    result = result' ∧ q = r ∧ most = most' := by
  induction h generalizing r most' with
  | answer =>
    cases h'
    exact ⟨rfl, rfl, rfl⟩
  | look _ ih =>
    cases h' with
    | look h' => exact ih h'
  | act _ ih =>
    cases h' with
    | act h' => exact ih h'
  | call _ _ ih ihgo =>
    cases h' with
    | call h' hgo' =>
      obtain ⟨rfl, rfl, rfl⟩ := ih h'
      obtain ⟨hresult, hq, hmost⟩ := ihgo hgo'
      exact ⟨hresult, hq, by rw [hmost]⟩

theorem Opens.nestsTooDeep {go : Except Diagnostic β → Script α}
    {result : Except Diagnostic β} {result' : Except Diagnostic α} {most : Nat}
    (h : (go result).Opens p result' q most) (herror : ∀ d, go (.error d) = .answer (.error d)) :
    NestsTooDeep result → NestsTooDeep result' := by
  rintro ⟨d, rfl, hcause⟩
  rw [herror] at h
  cases h
  exact ⟨d, rfl, hcause⟩

/-- As many levels are open as there are open expressions, unless one that opens finds none left. -/
theorem Blind.exists_opens {result : Except Diagnostic α} (hx : x.Blind)
    (h : x.Runs p result q moments) :
    ∃ most, x.Opens p result q most ∧
      (¬ NestsTooDeep result → most = Parser.mostOpen p.depth moments) := by
  refine (hx.runs_induction
    (motive := fun x p result q moments => ∃ most, x.Opens p result q most ∧
      (¬ NestsTooDeep result → most = Parser.mostOpen p.depth moments))
    ?answer ?look ?act ?call ?refused ?opened h).2
  case answer => exact fun result p => ⟨0, .answer result p, fun _ => rfl⟩
  case look =>
    rintro _ go p q result moments - ⟨most, hopens, hmost⟩
    exact ⟨most, .look hopens, hmost⟩
  case act =>
    rintro _ action go p q result moments haction ⟨most, hopens, hmost⟩
    refine ⟨most, .act hopens, fun hresult => ?_⟩
    rw [Action.perform_depth haction] at hmost
    simp [hmost hresult, Action.perform_depth haction]
  case call =>
    rintro _ procedure go p q r result result' moments moments' hprocedure herror hq
      ⟨most, hopens, hmost⟩ ⟨most', hopens', hmost'⟩
    refine ⟨_, .call hopens hopens', fun hresult' => ?_⟩
    have hresult := mt (hopens'.nestsTooDeep herror) hresult'
    have hopens : procedure.opens = 0 := by
      cases procedure with
      | expression cutoff => exact absurd rfl (hprocedure cutoff)
      | _ => rfl
    rw [hq] at hmost'
    rw [hopens, Nat.zero_add, hmost hresult, hmost' hresult', Parser.mostOpen_append]
  case refused =>
    intro _ cutoff go p herror hdepth
    have hbody : (expression cutoff).body.Opens p (.error p.tooDeep) p 0 := by
      refine .act ?_
      rw [Parser.enterNesting_perform_of_le hdepth]
      exact .answer _ _
    have hgo : (go (.error p.tooDeep)).Opens p (.error p.tooDeep) p 0 := by
      rw [herror]
      exact .answer _ _
    exact ⟨_, .call hbody hgo, fun hnot => absurd p.nestsTooDeep_tooDeep hnot⟩
  case opened =>
    rintro _ cutoff go p q r result result' moments moments' herror hdepth hq
      ⟨most, hopens, hmost⟩ ⟨most', hopens', hmost'⟩
    have hbody : (expression cutoff).body.Opens p result (q.withDepth p.depth)
        (max (0 + most) 0) := by
      refine .act ?_
      rw [Parser.enterNesting_perform_of_lt hdepth]
      refine .call hopens (.act ?_)
      rw [Parser.exitNesting_perform hq]
      exact .answer _ _
    refine ⟨_, .call hbody hopens', fun hresult' => ?_⟩
    have hresult := mt (hopens'.nestsTooDeep herror) hresult'
    have hlevel := Parser.mostOpen_succ p.depth moments
    simp only [Parser.withDepth_depth] at hmost hmost'
    simp only [Procedure.opens, Parser.mostOpen_append, Parser.mostOpen_cons,
      Parser.withDepth_depth, hmost hresult, hmost' hresult']
    omega

end Script

namespace Parser

theorem run_expression_iff {p : Parser} (heof : p.tables.operator .eof = none)
    (cutoff : BindingPower) (result : Except Diagnostic Expr) (q : Parser) :
    (∃ moments, (run (expression cutoff)).Runs p result q moments) ↔
      (result, q) = p.parseExpression cutoff := by
  refine Iff.trans ⟨?_, ?_⟩ (runs_iff heof (expression cutoff) result q)
  · rintro ⟨_, h⟩
    cases h with
    | call h hanswer =>
      cases hanswer
      exact ⟨_, h⟩
  · rintro ⟨_, h⟩
    exact ⟨_, .call h (.answer _ _)⟩

theorem find?_overflows_eq_none_iff {depth extra : Nat} {moments : List Parser}
    (h : depth + extra ≤ maxNesting) :
    moments.find? (overflows extra) = none ↔
      depth + extra + mostOpen depth moments ≤ maxNesting := by
  have hmost : maxNesting - (depth + extra) < mostOpen depth moments ↔
      ∃ m ∈ moments, maxNesting < m.depth + extra := by
    rw [lt_mostOpen_iff]
    exact exists_congr fun m => and_congr_right fun _ => by omega
  rw [List.find?_eq_none]
  constructor
  · intro hnone
    refine Nat.le_of_not_lt fun hlt => ?_
    obtain ⟨m, hm, hover⟩ := hmost.1 (by omega)
    exact hnone m hm (decide_eq_true hover)
  · intro hle m hm hover
    have := hmost.2 ⟨m, hm, of_decide_eq_true hover⟩
    omega

/-- **The nesting limit only cuts off.** An expression is parsed from one and the same state with
more and with fewer levels open at first. What does not end because the levels are used up is the
same with fewer levels open. It is also the same with more levels open, if the most expressions that
were open at once fit in; if they do not, the parse ends in the moment when the first level was
opened that does not fit, and reports the token that was the current one then. -/
theorem parseExpression_deeper {p : Parser} (heof : p.tables.operator .eof = none) {d₁ d₂ : Nat}
    (hle : d₁ ≤ d₂) (hmax : d₂ ≤ maxNesting) (cutoff : BindingPower) :
    let shallow := (p.withDepth d₁).parseExpression cutoff
    let deep := (p.withDepth d₂).parseExpression cutoff
    (¬ NestsTooDeep deep.1 → shallow = (deep.1, deep.2.withDepth d₁)) ∧
      (¬ NestsTooDeep shallow.1 →
        ∃ moments most,
          (run (expression cutoff)).Runs (p.withDepth d₁) shallow.1 shallow.2 moments ∧
          (run (expression cutoff)).Opens (p.withDepth d₁) shallow.1 shallow.2 most ∧
          (d₂ + most ≤ maxNesting → deep = (shallow.1, shallow.2.withDepth d₂)) ∧
          (maxNesting < d₂ + most →
            ∃ before moment after, moments = before ++ moment :: after ∧
              moment.depth = d₁ + (maxNesting - d₂ + 1) ∧
              (∀ m ∈ before, m.depth < moment.depth) ∧
              deep = (.error moment.tooDeep, moment.withDepth d₂))) := by
  intro shallow deep
  obtain ⟨extra, rfl⟩ := Nat.exists_eq_add_of_le hle
  obtain ⟨moments, hruns⟩ :=
    (run_expression_iff (p := p.withDepth d₁) heof cutoff shallow.1 shallow.2).2 rfl
  have hdeep {result q} :=
    (run_expression_iff (p := p.withDepth (d₁ + extra)) heof cutoff result q).1
  have hblind : (run (expression cutoff)).Blind := .run rfl
  obtain ⟨hsame, hshort⟩ := hblind.cutOff hruns hmax
  obtain ⟨most, hopens, hmost⟩ := hblind.exists_opens hruns
  have hnone : moments.find? (overflows extra) = none ↔
      d₁ + extra + mostOpen d₁ moments ≤ maxNesting := find?_overflows_eq_none_iff hmax
  cases hfind : moments.find? (overflows extra) with
  | none =>
    have heq : (shallow.1, shallow.2.withDepth (d₁ + extra)) = deep := hdeep (hsame hfind)
    refine ⟨fun _ => ?_, fun hshallow => ⟨moments, most, hruns, hopens, fun _ => heq.symm, ?_⟩⟩
    · rw [← heq]
      rfl
    · intro hlt
      rw [hmost hshallow] at hlt
      exact absurd (hnone.1 hfind) (Nat.not_le.2 hlt)
  | some moment =>
    obtain ⟨hdepth, hends⟩ := hshort moment hfind
    have heq : (.error moment.tooDeep, moment.withDepth (d₁ + extra)) = deep := hdeep hends
    refine ⟨fun hnot => ?_, fun hshallow => ⟨moments, most, hruns, hopens, ?_, fun _ => ?_⟩⟩
    · rw [← heq] at hnot
      exact absurd moment.nestsTooDeep_tooDeep hnot
    · intro hfits
      rw [hmost hshallow] at hfits
      exact nomatch hfind.symm.trans (hnone.2 hfits)
    · obtain ⟨-, before, after, hsplit, hbefore⟩ := List.find?_eq_some_iff_append.1 hfind
      refine ⟨before, moment, after, hsplit, by omega, fun m hm => ?_, heq.symm⟩
      have hfits : ¬ maxNesting < m.depth + extra := by
        simpa [overflows] using hbefore m hm
      omega

/-- A name in parentheses after a minus needs three levels. With one level left, there is none for
the operand of the minus. -/
theorem parseExpression_deeper_unary :
    let p := Parser.ofFile "shell" "-(a)"
    p.tables.operator .eof = none ∧ 0 ≤ 127 ∧ 127 ≤ maxNesting ∧
      ∃ e q most, (p.withDepth 0).parseExpression .lowest = (.ok e, q) ∧ e.text = "(-a)" ∧
        (run (expression .lowest)).Opens (p.withDepth 0) (.ok e) q most ∧
        maxNesting < 127 + most ∧
        ∃ moment : Parser, moment.depth = 2 ∧
          moment.tokens.current.span.start = .ofBytes "shell" 1 ∧
          (p.withDepth 127).parseExpression .lowest =
            (.error moment.tooDeep, moment.withDepth 127) := by
  intro p
  have heof : p.tables.operator .eof = none := rfl
  obtain ⟨-, hcut⟩ := parseExpression_deeper heof (Nat.zero_le 127) (by decide) .lowest
  have hshallow : ((p.withDepth 0).parseExpression .lowest).1.toOption.map Expr.text =
      some "(-a)" := by
    decide +kernel
  have hdeep : ((p.withDepth 127).parseExpression .lowest).1.toOption = none := by decide +kernel
  have hstart : ((p.withDepth 127).parseExpression .lowest).2.tokens.current.span.start =
      .ofBytes "shell" 1 := by
    decide +kernel
  generalize (p.withDepth 0).parseExpression .lowest = shallow at *
  obtain ⟨d | e, q⟩ := shallow
  · cases hshallow
  obtain ⟨moments, most, -, hopens, hsame, hshort⟩ := hcut (by rintro ⟨d, hd, -⟩; cases hd)
  have hmost : maxNesting < 127 + most := by
    refine Nat.lt_of_not_le fun hle => ?_
    rw [hsame hle] at hdeep
    cases hdeep
  obtain ⟨_, moment, _, -, hdepth, -, heq⟩ := hshort hmost
  rw [heq] at hstart
  exact ⟨heof, Nat.zero_le _, by decide, e, q, most, rfl, Option.some.inj hshallow, hopens, hmost,
    moment, hdepth, hstart, heq⟩

end Parser

end FrontEnd
