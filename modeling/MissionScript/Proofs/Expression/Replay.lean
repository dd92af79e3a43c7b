/-
What a journal says about the expression.

A journal is a program for a stack: a leaf is put on it, an operator or a call takes its operands from it. Two buildings of
one text, of a journal and of a tree, go side by side: `Follows` says that they end in the same fault or both succeed, and
it is closed under the ways in which buildings are put together.

- `Yields`: the events put these expressions on any stack.
- `follows_buildWith`: the journal of a text yields its tree.
- `journal_replays`: a journal ends in the fault in which the building of the tree ends, or it leaves exactly one expression,
  which is the tree but for the texts that calls of built-in functions keep.
-/
import MissionScript.Expression.Journal
import MissionScript.Proofs.Expression.Built

namespace MissionScript

open Expression

variable {voc : Vocabulary} {nesting : Nesting} {es fs : List Event} {x y : Expression} {xs ys : List Expression}

/-! ## Journals as programs -/

namespace Event

/-- what the making of a node does to a stack, the node made last in front -/
def perform : Event → List Expression → Option (List Expression)
  | leaf text, stack => some (.leaf text :: stack)
  | unary op, operand :: stack => some (.unary op operand :: stack)
  | binary op, right :: left :: stack => some (.binary op left right :: stack)
  | call callee arguments inputs, stack =>
    if arguments ≤ stack.length then
      some (.call callee (stack.take arguments).reverse inputs :: stack.drop arguments)
    else none
  | _, _ => none

/-- what a journal leaves of a stack -/
def replay (events : List Event) (stack : List Expression) : Option (List Expression) :=
  events.foldlM (fun stack e => e.perform stack) stack

theorem replay_append (es fs : List Event) (stack : List Expression) :
    replay (es ++ fs) stack = (replay es stack).bind (replay fs) := List.foldlM_append

theorem replay_singleton (e : Event) (stack : List Expression) : replay [e] stack = e.perform stack := by
  rw [replay, List.foldlM_cons]
  exact Option.bind_fun_some _

end Event

mutual

/-- the expression without the texts that calls of built-in functions keep -/
def Expression.emptied : Expression → Expression
  | .leaf text => .leaf text
  | .unary op operand => .unary op operand.emptied
  | .binary op left right => .binary op left.emptied right.emptied
  | .call callee arguments inputs =>
    .call callee (Expression.emptiedAll arguments) (if callee.kind = .userDefined then inputs else [])

def Expression.emptiedAll : List Expression → List Expression
  | [] => []
  | e :: es => e.emptied :: Expression.emptiedAll es

end

theorem Expression.emptiedAll_eq_map (es : List Expression) : emptiedAll es = es.map emptied := by
  induction es with
  | nil => rfl
  | cons e es ih => rw [emptiedAll, ih, List.map_cons]

/-- On any stack, the events put expressions that are these but for texts of built-in calls. -/
def Yields (events : List Event) (xs : List Expression) : Prop :=
  ∃ made : List Expression, made.map emptied = xs ∧ ∀ stack, Event.replay events stack = some (made.reverse ++ stack)

namespace Yields

theorem nil : Yields [] [] := ⟨[], rfl, fun _ => rfl⟩

theorem append (hx : Yields es xs) (hy : Yields fs ys) : Yields (es ++ fs) (xs ++ ys) := by
  obtain ⟨made, rfl, hes⟩ := hx
  obtain ⟨more, rfl, hfs⟩ := hy
  refine ⟨made ++ more, List.map_append, fun stack => ?_⟩
  rw [Event.replay_append, hes, Option.bind_some, hfs, List.reverse_append, List.append_assoc]

theorem leaf (text : Text) : Yields [.leaf text] [.leaf text] := ⟨[.leaf text], rfl, fun _ => rfl⟩

theorem unary (op : UnaryOp) (h : Yields es [x]) : Yields (es ++ [.unary op]) [.unary op x] := by
  obtain ⟨made, hmade, hes⟩ := h
  obtain ⟨operand, rfl, rfl⟩ := List.map_eq_singleton_iff.1 hmade
  refine ⟨[.unary op operand], rfl, fun stack => ?_⟩
  rw [Event.replay_append, hes, Option.bind_some, Event.replay_singleton]
  rfl

theorem binary (op : BinaryOp) (h : Yields es [x, y]) : Yields (es ++ [.binary op]) [.binary op x y] := by
  obtain ⟨made, hmade, hes⟩ := h
  obtain ⟨left, rest, rfl, rfl, hrest⟩ := List.map_eq_cons_iff.1 hmade
  obtain ⟨right, rfl, rfl⟩ := List.map_eq_singleton_iff.1 hrest
  refine ⟨[.binary op left right], rfl, fun stack => ?_⟩
  rw [Event.replay_append, hes, Option.bind_some, Event.replay_singleton]
  rfl

theorem call (callee : Callee) (inputs : List Text) (h : Yields es xs) :
    Yields (es ++ [.call callee xs.length inputs])
      [.call callee xs (if callee.kind = .userDefined then inputs else [])] := by
  obtain ⟨made, rfl, hes⟩ := h
  refine ⟨[.call callee made inputs], ?_, fun stack => ?_⟩
  · rw [List.map_singleton, emptied, emptiedAll_eq_map]
  · have hlength : (made.map emptied).length = made.reverse.length := by rw [List.length_map, List.length_reverse]
    rw [Event.replay_append, hes, Option.bind_some, Event.replay_singleton, Event.perform, hlength,
      if_pos (by rw [List.length_append]; exact Nat.le_add_right _ _), List.take_left, List.drop_left, List.reverse_reverse]
    rfl

end Yields

/-! ## Two buildings side by side -/

/-- the same fault, or related results -/
inductive SameOutcome {α β : Type} (related : α → β → Prop) : Except ParseError α → Except ParseError β → Prop where
  | error (e : ParseError) : SameOutcome related (.error e) (.error e)
  | ok {a : α} {b : β} (h : related a b) : SameOutcome related (.ok a) (.ok b)

/-- A journaled building goes as another building: it ends in the same fault, or what it has noted and its result are
related to the result of the other. -/
def Follows {α β : Type} (journaled : Journaled α) (built : Except ParseError β)
    (related : List Event → α → β → Prop) : Prop :=
  ∀ events, ∃ new outcome,
    journaled.run.run events = (outcome, events ++ new) ∧ SameOutcome (related new) outcome built

namespace Follows

variable {α β γ δ : Type} {related : List Event → α → β → Prop}

theorem pure {a : α} {b : β} (h : related [] a b) : Follows (pure a) (.ok b) related :=
  fun events => ⟨[], .ok a, by rw [List.append_nil]; rfl, .ok h⟩

theorem throw (e : ParseError) : Follows (throw e : Journaled α) (.error e) related :=
  fun events => ⟨[], .error e, by rw [List.append_nil]; rfl, .error e⟩

theorem note {e : Event} {b : β} {related : List Event → Unit → β → Prop} (h : related [e] () b) :
    Follows (Event.note e) (.ok b) related := fun _ => ⟨[e], .ok (), rfl, .ok h⟩

/-- The rest of a building sees what was noted before it, and does not take place behind a fault. -/
theorem run_bind (journaled : Journaled α) (f : α → Journaled γ) (events : List Event) :
    (journaled >>= f).run.run events =
      match journaled.run.run events with
      | (.ok a, noted) => (f a).run.run noted
      | (.error e, noted) => (.error e, noted) := by
  rw [ExceptT.run_bind, StateT.run_bind]
  rcases journaled.run.run events with ⟨e | a, noted⟩ <;> rfl

theorem bind {journaled : Journaled α} {built : Except ParseError β} {f : α → Journaled γ} {g : β → Except ParseError δ}
    {target : List Event → γ → δ → Prop} (h : Follows journaled built related)
    (hrest : ∀ new a b, related new a b → Follows (f a) (g b) fun more => target (new ++ more)) :
    Follows (journaled >>= f) (built >>= g) target := by
  intro events
  obtain ⟨new, outcome, hrun, hsame⟩ := h events
  cases hsame with
  | error e => exact ⟨new, .error e, by rw [run_bind, hrun], .error e⟩
  | ok hrelated =>
    obtain ⟨more, outcome, hmore, hsame⟩ := hrest new _ _ hrelated (events ++ new)
    exact ⟨new ++ more, outcome, by rw [run_bind, hrun, ← List.append_assoc]; exact hmore, hsame⟩

/-- A check that both buildings make notes nothing. -/
theorem check (checked : Except ParseError Unit) {f : Unit → Journaled γ} {g : Unit → Except ParseError δ}
    {target : List Event → γ → δ → Prop} (hrest : Follows (f ()) (g ()) target) :
    Follows (MonadExcept.ofExcept checked >>= f) (MonadExcept.ofExcept checked >>= g) target := by
  have hchecked : Follows (MonadExcept.ofExcept checked) (MonadExcept.ofExcept checked) fun new _ _ => new = [] := by
    cases checked with
    | error e => exact .throw e
    | ok u => exact .pure rfl
  refine hchecked.bind fun new _ _ hnew => ?_
  rw [hnew]
  exact hrest

end Follows

/-! ## Journals of texts -/

theorem follows_buildArguments (function : Text) {arguments : List Text}
    (h : ∀ argument ∈ arguments, Follows (buildWith Event.builder nesting voc argument) (build nesting voc argument)
      fun new _ x => Yields new [x]) :
    Follows (buildArguments Event.builder nesting voc function arguments)
      (buildArguments builder nesting voc function arguments) fun new nodes xs =>
        nodes.length = xs.length ∧ Yields new xs := by
  induction arguments with
  | nil =>
    rw [buildArguments, buildArguments]
    exact .pure ⟨rfl, .nil⟩
  | cons argument rest ih =>
    rw [buildArguments, buildArguments]
    refine .check _ (.bind (h argument List.mem_cons_self) fun new _ x hx => ?_)
    refine .bind (ih fun a ha => h a (List.mem_cons_of_mem _ ha)) fun more nodes xs hxs => .pure ?_
    obtain ⟨hlength, hxs⟩ := hxs
    rw [List.append_nil]
    exact ⟨congrArg Nat.succ hlength, hx.append hxs⟩

/-- The journal of a text yields the tree of the text. -/
theorem follows_buildWith (nesting : Nesting) (voc : Vocabulary) (t : Text) :
    Follows (buildWith Event.builder nesting voc t) (build nesting voc t) fun new _ x => Yields new [x] := by
  induction t using operand_induction voc with
  | _ t ih =>
    rw [build, buildWith_eq, buildWith_eq]
    cases hlevel : decompose voc t with
    | error e => exact .throw e
    | ok d =>
      have ih := ih d hlevel
      cases d with
      | leaf text =>
        change Follows (if text.isEmpty then _ else _) (if text.isEmpty then _ else _) _
        split_ifs
        · exact .throw _
        · exact .note (.leaf text)
      | unary op operand =>
        refine .check _ (.bind (ih operand List.mem_cons_self) fun new _ x hx => ?_)
        exact .note (hx.unary op)
      | binary op left right =>
        refine .check _ (.check _ (.bind (ih left List.mem_cons_self) fun new _ x hx => ?_))
        refine .bind (ih right (List.mem_cons_of_mem _ List.mem_cons_self)) fun more _ y hy => ?_
        refine .note ?_
        rw [← List.append_assoc]
        exact (hx.append hy).binary op
      | call callee inside =>
        refine .bind (follows_buildArguments callee.name ih) fun new nodes xs hxs => ?_
        obtain ⟨hlength, hxs⟩ := hxs
        refine .note ?_
        rw [hlength]
        exact hxs.call callee (argumentTexts inside)

/-- **A journal is faithful.** It ends in the fault in which the building of the tree ends. Without a fault its events leave
exactly one expression of an empty stack, which is the tree but for the texts that calls of built-in functions keep. -/
theorem journal_replays (nesting : Nesting) (voc : Vocabulary) (t : Text) :
    (∃ e, build nesting voc t = .error e ∧ (journal nesting voc t).1 = .error e) ∨
      ∃ tree made, build nesting voc t = .ok tree ∧ (journal nesting voc t).1 = .ok () ∧
        Event.replay (journal nesting voc t).2 [] = some [made] ∧ made.emptied = tree := by
  obtain ⟨new, outcome, hrun, hsame⟩ := follows_buildWith nesting voc t []
  have houtcome : (journal nesting voc t).1 = outcome := congrArg Prod.fst hrun
  have hevents : (journal nesting voc t).2 = [] ++ new := congrArg Prod.snd hrun
  rw [houtcome, hevents]
  generalize build nesting voc t = built at hsame
  cases hsame with
  | error e => exact .inl ⟨e, rfl, rfl⟩
  | ok hyields =>
    obtain ⟨made, hmade, hreplay⟩ := hyields
    obtain ⟨x, rfl, rfl⟩ := List.map_eq_singleton_iff.1 hmade
    exact .inr ⟨_, x, rfl, rfl, hreplay [], rfl⟩

end MissionScript
