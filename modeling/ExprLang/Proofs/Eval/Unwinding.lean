import ExprLang.Proofs.Eval.Failing

/-!
# How a failing run unwinds

An evaluation fails exactly if it comes to a point where the run fails, and what is in progress at
that point is told in the end (`failsWith_iff_unwinds`): a fault that carries no place has taken
that of the innermost tree under evaluation that has one, and the calls that are being executed are
on record, on top of those that were there before.

One evaluation is looked at first. Its failure is its own, or that of something it executes, or that
of another evaluation that it has begun (`Surfaces.of_error`), and each of these makes it fail
(`Breaks.fails`, `Operates.fails`, `Enters.fails`, `Starts.fails`). The rest is induction: over the
tree as long as an evaluation begins one of a part of its tree, and over the room for calls where it
begins that of a body.
-/

namespace ExprLang

open EvalM

variable {settings : Settings}

/-! ## One evaluation -/

/-- How a failure comes up inside the frame of an evaluation, and which calls are on record then. -/
inductive Surfaces (settings : Settings) (ev : Evaluation) : Failure → List CallRecord → Prop
  | breaks {raw} : Breaks settings ev raw → Surfaces settings ev raw ev.state.calls
  | operates {call s₁ raw console} : Operates settings ev call s₁ →
      runBuiltin call.name call.args (s₁.noted settings call.operationNote).console
        = .error raw console → Surfaces settings ev raw (call :: ev.state.calls)
  | tooDeep {call body s₁} : Enters settings ev call body s₁ → ev.nesting = 0 →
      Surfaces settings ev .tooDeep (call :: ev.state.calls)
  | within {call sub raw s'} : Starts settings ev call sub →
      evalNested settings sub.nesting sub.tree sub.state = .error raw s' →
      Surfaces settings ev raw s'.calls

namespace Surfaces

variable {nesting : Nat} {s s₁ s' : RunState} {raw : Failure}

/-- A failure in the round of a loop that is reached. -/
theorem loop {loc : Option Loc} {test body : Expr} {tests done : Nat} {last : Expr}
    (hreaches : LoopReaches settings nesting test body s.entered tests done s₁)
    (h : repeatWhile settings (evalNested settings nesting test >>= conditionValue .loop)
      (evalNested settings nesting body) tests done last s₁ = .error raw s') :
    Surfaces settings ⟨nesting, .loop loc test body, s⟩ raw s'.calls := by
  induction tests generalizing done last s₁ with
  | zero =>
      obtain ⟨rfl, rfl⟩ := EStateM.Result.error.inj h
      have hcalls : s₁.calls = s.calls := hreaches.level.calls
      rw [hcalls]
      exact .breaks (.stalled hreaches)
  | succ tests ih =>
      obtain hcondition | ⟨s₂, hholds, hround⟩ := repeatWhile_eq_error_iff.mp h
      · obtain htest | ⟨found, hfound, hnot, rfl⟩ := condition_eq_error_iff.mp hcondition
        · exact .within (.loopTest hreaches) htest
        · have hcalls : s'.calls = s.calls := (hreaches.level.trans (level_of_ok hfound)).calls
          rw [hcalls]
          exact .breaks (.loopTest hreaches hfound hnot)
      · obtain ⟨boolLoc, hbool⟩ := condition_eq_ok_iff.mp hholds
        obtain ⟨hcap, rfl, rfl⟩ | ⟨hcap, hbody | ⟨value, s₃, hvalue, hagain⟩⟩ :=
          hround
        · have hcalls : s₂.calls = s.calls := (hreaches.level.trans (level_of_ok hbool)).calls
          rw [hcalls]
          exact .breaks (.loopLimit hreaches hbool hcap)
        · exact .within (.loopBody hreaches hbool hcap) hbody
        · exact ih (.again hreaches hbool hcap hvalue) hagain

/-- A failure of a body that is entered. -/
theorem entered {tree callee body : Expr} {name : String} {args : List Expr}
    (henters : Enters settings ⟨nesting, tree, s⟩ ⟨name, callee, args⟩ body s₁)
    (h : enterBody settings (runBodies settings nesting) name callee body args s₁
      = .error raw s') :
    Surfaces settings ⟨nesting, tree, s⟩ raw s'.calls := by
  obtain ⟨s₂, hbody, rfl⟩ := enterBody_eq_error_iff.mp h
  cases nesting with
  | zero =>
      obtain ⟨rfl, rfl⟩ := EStateM.Result.error.inj hbody
      obtain ⟨-, hlevel, -⟩ := henters.inherits hereditary_true trivial s.scope.each_true
      have hcalls : s₁.calls = s.calls := hlevel.calls
      simp only [RunState.executing, RunState.noted_calls, hcalls]
      exact .tooDeep henters rfl
  | succ nesting =>
      show Surfaces settings _ raw s₂.calls
      exact .within (.body henters) hbody

/-- A failure of an operation that is run. -/
theorem invoked {tree callee : Expr} {name : String} {args : List Expr}
    (hoperates : Operates settings ⟨nesting, tree, s⟩ ⟨name, callee, args⟩ s₁)
    (h : invoke settings callee name args s₁ = .error raw s') :
    Surfaces settings ⟨nesting, tree, s⟩ raw s'.calls := by
  obtain ⟨console, hrun, rfl⟩ := invoke_eq_error_iff.mp h
  have hcalls : s₁.calls = s.calls :=
    (hoperates.level hereditary_true trivial s.scope.each_true).calls
  simp only [RunState.noted_calls, hcalls]
  exact .operates hoperates hrun

/-- A failure of a call whose callee has a value. -/
theorem applied {loc : Option Loc} {callee found : Expr} {arg : Option Expr}
    (hcallee : evalNested settings nesting callee s.entered = .ok found s₁)
    (h : apply settings (runBodies settings nesting) (calleeName callee)
      (arg.map (evalNested settings nesting)) found s₁ = .error raw s') :
    Surfaces settings ⟨nesting, .call loc callee arg, s⟩ raw s'.calls := by
  have hcalls : s₁.calls = s.calls := (level_of_ok hcallee).calls
  have hrefused : ∀ {fault : Fault},
    refusal? (calleeName callee) arg.isSome found = some fault →
      (raise fault : EvalM Expr) s₁ = .error raw s' →
        Surfaces settings ⟨nesting, .call loc callee arg, s⟩ raw s'.calls := by
    rintro fault hfault ⟨⟩
    rw [hcalls]
    exact .breaks (.refused hcallee hfault)
  cases found with
  | fn fnLoc param body =>
      match param, arg with
      | none, some arg => exact hrefused rfl h
      | some param, none => exact hrefused rfl h
      | none, none => exact entered (.bare hcallee) h
      | some param, some arg =>
          obtain harg | ⟨value, s₂, harg, hrest⟩ := bind_eq_error_iff.mp h
          · exact .within (.argument hcallee trivial) harg
          · obtain hparam | ⟨⟨⟩, s₃, hparam, hbody⟩ := bind_eq_error_iff.mp hrest
            · -- the frame of the call lies on top of another one
              have hbelow : s₂.scope.below ≠ [] :=
                ((level_of_ok hcallee).trans (level_of_ok harg)).below_ne_nil (List.cons_ne_nil _ _)
              obtain ⟨frame, under, hsplit⟩ := List.exists_cons_of_ne_nil hbelow
              rw [bindParam_eq_ok hsplit] at hparam
              exact absurd hparam nofun
            · exact entered (.given hcallee harg hparam) hbody
  | builtin opLoc name missing supplied =>
      match missing, arg with
      | 0, arg => exact invoked (.full hcallee) h
      | missing + 1, none => exact hrefused rfl h
      | missing + 1, some arg =>
          obtain harg | ⟨value, s₂, harg, hrest⟩ := bind_eq_error_iff.mp h
          · exact .within (.argument hcallee trivial) harg
          · cases missing with
            | zero => exact invoked (.last hcallee harg) hrest
            | succ missing => exact absurd hrest nofun
  | _ => exact hrefused rfl h

/-- A binding does not fail once its value is there. -/
theorem not_bound {name : String} {value : Expr} {raw : Failure} (hbelow : s.scope.below ≠ [])
    (h : (do
      if settings.tracing then
        log ["let", name, "=", value.display, "depth", toString (← get).scope.depth]
      bindName name value
      return value) s = .error raw s') : False := by
  have htrace : Logs (do
      log ["let", name, "=", value.display, "depth", toString (← get).scope.depth]) :=
    fun s => ⟨_, rfl⟩
  obtain ⟨s₁, hscope, hbind⟩ := traced_eq_error htrace h
  rw [← hscope] at hbelow
  obtain ⟨above, frame, under, -, hbound⟩ := bindName_eq_ok hbelow name value
  rw [bind_apply, hbound] at hbind
  exact absurd hbind nofun

theorem of_inFrame {e : Expr} {place : Option Loc} {act : EvalM Expr} {failure : Failure}
    (hinside : ∀ raw s₁, act s.entered = .error raw s₁ →
      Surfaces settings ⟨nesting, e, s⟩ raw s₁.calls)
    (h : inFrame place act s = .error failure s') :
    ∃ raw, raw.locate place = failure ∧ Surfaces settings ⟨nesting, e, s⟩ raw s'.calls := by
  obtain ⟨raw, s₁, hfails, hfailure, rfl⟩ := inFrame_eq_error_iff.mp h
  exact ⟨raw, hfailure, hinside raw s₁ hfails⟩

/-- A failing evaluation fails in one of the ways told. -/
theorem of_error {e : Expr} {failure : Failure}
    (h : evalNested settings nesting e s = .error failure s') :
    ∃ raw, raw.locate e.loc? = failure ∧
      Surfaces settings ⟨nesting, e, s⟩ raw s'.calls := by
  cases e with
  | int | str | bool | null | endOfProgram | fn | builtin =>
      rw [evalNested_eq, evalWith] at h
      refine of_inFrame (fun raw s₁ hfails => ?_) h
      cases hfails
  | ident loc name =>
      rw [evalNested_ident] at h
      refine of_inFrame (fun raw s₁ hfails => ?_) h
      unfold lookup at hfails
      split at hfails
      next => cases hfails
      next hnone =>
          obtain ⟨rfl, rfl⟩ := EStateM.Result.error.inj hfails
          exact .breaks (.unknown hnone)
  | list loc items =>
      rw [evalNested_list] at h
      refine of_inFrame (fun raw s₁ hfails => ?_) h
      obtain hitems | ⟨values, s₂, -, hpure⟩ := bind_eq_error_iff.mp hfails
      · obtain ⟨before, e, after, s₂, rfl, hpasses, he⟩ :=
          (evalItems_inTurn.eq_error_iff (a := ())).mp hitems
        exact .within (.item hpasses) he
      · cases hpure
  | block loc exprs =>
      rw [evalNested_block] at h
      refine of_inFrame (fun raw s₁ hfails => ?_) h
      obtain ⟨before, e, after, s₂, rfl, hpasses, he⟩ :=
        evalSequence_inTurn.eq_error_iff.mp hfails
      exact .within (.member hpasses) he
  | program loc exprs =>
      rw [evalNested_program] at h
      refine of_inFrame (fun raw s₁ hfails => ?_) h
      obtain ⟨before, e, after, s₂, rfl, hpasses, he⟩ :=
        (evalProgram_inTurn.eq_error_iff (a := ())).mp hfails
      exact .within (.topLevel hpasses) he
  | binding loc name value =>
      rw [evalNested_binding] at h
      refine of_inFrame (fun raw s₁ hfails => ?_) h
      obtain hvalue | ⟨found, s₂, hvalue, hrest⟩ := bind_eq_error_iff.mp hfails
      · exact .within .bound hvalue
      · exact (not_bound ((level_of_ok hvalue).below_ne_nil (List.cons_ne_nil _ _)) hrest).elim
  | choice loc test yes no =>
      rw [evalNested_choice] at h
      refine of_inFrame (fun raw s₁ hfails => ?_) h
      obtain hcondition | ⟨holds, s₂, hholds, hbranch⟩ := bind_eq_error_iff.mp hfails
      · obtain htest | ⟨found, hfound, hnot, rfl⟩ := condition_eq_error_iff.mp hcondition
        · exact .within .choiceTest htest
        · have hcalls : s₁.calls = s.calls := (level_of_ok hfound).calls
          rw [hcalls]
          exact .breaks (.choiceTest hfound hnot)
      · obtain ⟨boolLoc, hbool⟩ := condition_eq_ok_iff.mp hholds
        cases holds with
        | true => exact .within (.branch hbool) hbranch
        | false => exact .within (.branch hbool) hbranch
  | loop loc test body =>
      rw [evalNested_loop] at h
      exact of_inFrame (fun raw s₁ hfails => loop .begin hfails) h
  | bareCall loc callee | call loc callee arg =>
      rw [evalNested_call] at h
      refine of_inFrame (fun raw s₁ hfails => ?_) h
      obtain hcallee | ⟨found, s₂, hcallee, happly⟩ := bind_eq_error_iff.mp hfails
      · exact .within .callee hcallee
      · exact applied hcallee happly

end Surfaces

/-! ## Failing indeed -/

/-- Where a loop fails that it reaches, it fails. -/
theorem LoopReaches.fails {nesting : Nat} {test body : Expr} {s s₁ s' : RunState}
    {tests done : Nat} {raw : Failure}
    (h : LoopReaches settings nesting test body s tests done s₁)
    (hfails : ∀ last, repeatWhile settings
      (evalNested settings nesting test >>= conditionValue .loop)
      (evalNested settings nesting body) tests done last s₁ = .error raw s') :
    repeatWhile settings (evalNested settings nesting test >>= conditionValue .loop)
      (evalNested settings nesting body) settings.tests 0 .null s = .error raw s' := by
  induction h with
  | begin => exact hfails .null
  | again _ hholds hcap hvalue ih =>
      refine ih fun last => repeatWhile_eq_error_iff.mpr (.inr ?_)
      exact ⟨_, condition_eq_ok_iff.mpr ⟨_, hholds⟩,
        .inr ⟨hcap, .inr ⟨_, _, hvalue, hfails _⟩⟩⟩

/-- An evaluation fails so, and then with these calls on record. -/
def FailsWith (settings : Settings) (ev : Evaluation) (failure : Failure)
    (calls : List CallRecord) : Prop :=
  ∃ s', evalNested settings ev.nesting ev.tree ev.state = .error failure s' ∧ s'.calls = calls

section
variable {ev : Evaluation} {act : EvalM Expr} {raw : Failure} {s₁ : RunState}
  {calls : List CallRecord}

theorem FailsWith.of_frame
    (heval : evalNested settings ev.nesting ev.tree ev.state = inFrame ev.tree.loc? act ev.state)
    (h : act ev.state.entered = .error raw s₁) (hcalls : s₁.calls = calls) :
    FailsWith settings ev (raw.locate ev.tree.loc?) calls := by
  obtain ⟨s', hfails, hcalls'⟩ := inFrame_of_error ev.tree.loc? h
  exact ⟨s', heval.trans hfails, hcalls'.trans hcalls⟩

theorem FailsWith.of_inside
    (hopen : evalNested settings ev.nesting ev.tree = inFrame ev.tree.loc? act)
    (h : act ev.state.entered = .error raw s₁) (hcalls : s₁.calls = calls) :
    FailsWith settings ev (raw.locate ev.tree.loc?) calls :=
  .of_frame (congrFun hopen ev.state) h hcalls

end

section
variable {ev : Evaluation} {raw : Failure}

theorem Breaks.fails (h : Breaks settings ev raw) :
    FailsWith settings ev (raw.locate ev.tree.loc?) ev.state.calls := by
  cases h with
  | @unknown _ _ name s hnone =>
      have hlookup : lookup name s.entered
          = .error (.ofFault (.unknownIdentifier name)) s.entered := by
        unfold lookup
        rw [hnone]
      exact .of_inside (evalNested_ident _ _ _ _) hlookup rfl
  | choiceTest hfound hnot =>
      refine .of_inside (evalNested_choice _ _ _ _ _ _) (bind_eq_error_iff.mpr (.inl ?_))
        (level_of_ok hfound).calls
      exact condition_eq_error_iff.mpr (.inr ⟨_, hfound, hnot, rfl⟩)
  | loopTest hreaches hfound hnot =>
      refine .of_inside (evalNested_loop _ _ _ _ _)
        (hreaches.fails fun last => repeatWhile_eq_error_iff.mpr (.inl ?_))
        (hreaches.level.trans (level_of_ok hfound)).calls
      exact condition_eq_error_iff.mpr (.inr ⟨_, hfound, hnot, rfl⟩)
  | loopLimit hreaches hbool hcap =>
      refine .of_inside (evalNested_loop _ _ _ _ _)
        (hreaches.fails fun last => repeatWhile_eq_error_iff.mpr (.inr ?_))
        (hreaches.level.trans (level_of_ok hbool)).calls
      exact ⟨_, condition_eq_ok_iff.mpr ⟨_, hbool⟩, .inl ⟨hcap, rfl, rfl⟩⟩
  | stalled hreaches =>
      exact .of_inside (evalNested_loop _ _ _ _ _) (hreaches.fails fun last => rfl)
        hreaches.level.calls
  | refused hcallee hfault =>
      refine .of_inside (evalNested_call _ _ _ _ _)
        (bind_eq_error_iff.mpr (.inr ⟨_, _, hcallee, ?_⟩)) (level_of_ok hcallee).calls
      exact apply_of_refused (by rwa [Option.isSome_map])

theorem Enters.fails {nesting : Nat} {tree body : Expr} {s s₁ s₂ : RunState} {call : CallRecord}
    (h : Enters settings ⟨nesting, tree, s⟩ call body s₁)
    (hfails : runBodies settings nesting body
      ((s₁.noted settings call.functionNote).executing call) = .error raw s₂) :
    FailsWith settings ⟨nesting, tree, s⟩ (raw.locate tree.loc?) s₂.calls := by
  have hbody :
      enterBody settings (runBodies settings nesting) call.name call.callee body call.args s₁
        = .error raw { s₂ with floors := s₂.floors.tail } :=
    enterBody_eq_error_iff.mpr ⟨s₂, hfails, rfl⟩
  exact .of_frame h.eval_eq hbody rfl

theorem Operates.fails {call : CallRecord} {s₁ : RunState} {console : Console}
    (h : Operates settings ev call s₁)
    (hrun : runBuiltin call.name call.args (s₁.noted settings call.operationNote).console
      = .error raw console) :
    FailsWith settings ev (raw.locate ev.tree.loc?) (call :: ev.state.calls) := by
  have hinvoke := invoke_eq_error_iff.mpr ⟨console, hrun, rfl⟩
  have hcalls : s₁.calls = ev.state.calls :=
    (h.level hereditary_true trivial ev.state.scope.each_true).calls
  have hafter : call :: (s₁.noted settings call.operationNote).calls = call
      :: ev.state.calls := by
    rw [RunState.noted_calls, hcalls]
  exact .of_frame h.eval_eq hinvoke hafter

/-- An evaluation fails if one fails that it has begun. -/
theorem Starts.fails {sub : Evaluation} {call : Option CallRecord} {s₁ : RunState}
    (h : Starts settings ev call sub)
    (hfails : evalNested settings sub.nesting sub.tree sub.state = .error raw s₁) :
    FailsWith settings ev (raw.locate ev.tree.loc?) s₁.calls := by
  cases h with
  | item hpasses =>
      refine .of_inside (evalNested_list _ _ _ _) (bind_eq_error_iff.mpr (.inl ?_)) rfl
      exact (evalItems_inTurn.eq_error_iff (a := ())).mpr ⟨_, _, _, _, rfl, hpasses, hfails⟩
  | member hpasses =>
      refine .of_inside (evalNested_block _ _ _ _) ?_ rfl
      exact evalSequence_inTurn.eq_error_iff.mpr ⟨_, _, _, _, rfl, hpasses, hfails⟩
  | topLevel hpasses =>
      refine .of_inside (evalNested_program _ _ _ _) ?_ rfl
      exact (evalProgram_inTurn.eq_error_iff (a := ())).mpr ⟨_, _, _, _, rfl, hpasses, hfails⟩
  | bound =>
      exact .of_inside (evalNested_binding _ _ _ _ _) (bind_eq_error_iff.mpr (.inl hfails)) rfl
  | choiceTest =>
      refine .of_inside (evalNested_choice _ _ _ _ _ _) (bind_eq_error_iff.mpr (.inl ?_)) rfl
      exact condition_eq_error_iff.mpr (.inl hfails)
  | @branch _ _ _ _ _ _ _ holds _ hbool =>
      refine .of_inside (evalNested_choice _ _ _ _ _ _) (bind_eq_error_iff.mpr (.inr ?_)) rfl
      refine ⟨_, _, condition_eq_ok_iff.mpr ⟨_, hbool⟩, ?_⟩
      cases holds with
      | true => exact hfails
      | false => exact hfails
  | loopTest hreaches =>
      refine .of_inside (evalNested_loop _ _ _ _ _) (hreaches.fails fun last => ?_) rfl
      exact repeatWhile_eq_error_iff.mpr (.inl (condition_eq_error_iff.mpr (.inl hfails)))
  | loopBody hreaches hbool hcap =>
      refine .of_inside (evalNested_loop _ _ _ _ _)
        (hreaches.fails fun last => repeatWhile_eq_error_iff.mpr (.inr ?_)) rfl
      exact ⟨_, condition_eq_ok_iff.mpr ⟨_, hbool⟩, .inr ⟨hcap, .inl hfails⟩⟩
  | callee =>
      exact .of_inside (evalNested_call _ _ _ _ _) (bind_eq_error_iff.mpr (.inl hfails)) rfl
  | argument hcallee htakes =>
      exact .of_inside (evalNested_call _ _ _ _ _)
        (bind_eq_error_iff.mpr (.inr ⟨_, _, hcallee, apply_of_argument htakes hfails⟩)) rfl
  | body henters => exact henters.fails hfails

end

/-! ## Down to the point of failure -/

theorem Failure.locate_locate (failure : Failure) (inner outer : Option Loc) :
    (failure.locate inner).locate outer = failure.locate (inner.or outer) := by
  cases failure with
  | fault cause loc => cases loc <;> cases inner <;> rfl
  | _ => rfl

namespace Activity

variable (activity : Activity) (tree : Expr) (call : Option CallRecord)

theorem place_within : (activity.within tree call).place = activity.place.or tree.loc? := by
  unfold place within
  rw [List.reverse_cons, List.findSome?_append, List.findSome?_singleton]

theorem calls_within : (activity.within tree call).calls = call.toList ++ activity.calls :=
  List.append_assoc _ _ _

end Activity

/-- An evaluation that is begun is of a part of the tree, or may nest fewer calls. -/
theorem Starts.descends {ev sub : Evaluation} {call : Option CallRecord}
    (h : Starts settings ev call sub) :
    sub.nesting = ev.nesting ∧ sub.tree ∈ ev.tree.parts ∨ sub.nesting + 1 = ev.nesting := by
  cases h with
  | item | member | topLevel => exact .inl ⟨rfl, List.mem_append_right _ List.mem_cons_self⟩
  | bound | choiceTest | loopTest => exact .inl ⟨rfl, List.mem_cons_self⟩
  | loopBody => exact .inl ⟨rfl, List.mem_cons_of_mem _ List.mem_cons_self⟩
  | @branch _ _ _ _ _ _ _ holds =>
      refine .inl ⟨rfl, ?_⟩
      cases holds <;> simp [Expr.parts]
  | callee => exact .inl ⟨rfl, Expr.callee_mem_parts _ _ _⟩
  | argument => exact .inl ⟨rfl, Expr.arg_mem_parts _ _ _⟩
  | body => exact .inr rfl

theorem place_singleton (tree : Expr) (functions : List CallRecord)
    (operation : Option CallRecord) :
    (⟨[tree], functions, operation⟩ : Activity).place = tree.loc? :=
  List.findSome?_singleton

/-- What is in progress at the point where an evaluation fails, as its failure and the calls on
record in the end tell it. -/
def Unwinds (settings : Settings) (ev : Evaluation) (failure : Failure) (calls : List CallRecord) :
    Prop :=
  ∃ activity raw, FailsIn settings ev activity raw ∧ raw.locate activity.place = failure ∧
    activity.calls.reverse ++ ev.state.calls = calls

/-- What is in progress within an evaluation is told with what that adds to it. -/
theorem Starts.unwound {ev sub : Evaluation} {call : Option CallRecord}
    (h : Starts settings ev call sub) (activity : Activity) (raw : Failure) :
    raw.locate (activity.within ev.tree call).place
        = (raw.locate activity.place).locate ev.tree.loc? ∧
      (activity.within ev.tree call).calls.reverse ++ ev.state.calls
        = activity.calls.reverse ++ sub.state.calls := by
  obtain ⟨-, -, hrecord⟩ := h.inherits hereditary_true trivial ev.state.scope.each_true
  refine ⟨by rw [Activity.place_within, Failure.locate_locate], ?_⟩
  rw [hrecord, Activity.calls_within]
  cases call <;> simp

/-- A failure that comes up inside the frame of an evaluation unwinds, if those of the evaluations
that it has begun do. -/
theorem Surfaces.unwinds {ev : Evaluation} {raw : Failure} {calls : List CallRecord}
    (hsub : ∀ {call sub failure s'}, Starts settings ev call sub →
      evalNested settings sub.nesting sub.tree sub.state = .error failure s' →
      Unwinds settings sub failure s'.calls)
    (h : Surfaces settings ev raw calls) : Unwinds settings ev (raw.locate ev.tree.loc?) calls := by
  cases h with
  | breaks hbreaks => exact ⟨_, _, .breaks hbreaks, by rw [place_singleton], rfl⟩
  | operates hoperates hrun =>
      exact ⟨_, _, .operates hoperates hrun, by rw [place_singleton], rfl⟩
  | tooDeep henters hnesting =>
      obtain ⟨nesting, tree, s⟩ := ev
      obtain rfl : nesting = 0 := hnesting
      exact ⟨_, _, .tooDeep henters, rfl, rfl⟩
  | within hstarts hfails =>
      obtain ⟨activity, inner, hin, rfl, hcalls⟩ := hsub hstarts hfails
      obtain ⟨hplace, hrecords⟩ := hstarts.unwound activity inner
      exact ⟨_, _, .within hstarts hin, hplace, hrecords.trans hcalls⟩

/-- A failing evaluation unwinds. -/
theorem unwinds_of_error (nesting : Nat) (e : Expr) {s s' : RunState} {failure : Failure}
    (h : evalNested settings nesting e s = .error failure s') :
    Unwinds settings ⟨nesting, e, s⟩ failure s'.calls := by
  -- a body is evaluated with less room for calls, any other tree as a part of the tree before
  induction nesting using Nat.strongRecOn generalizing e s s' failure with
  | ind nesting ihNesting =>
    induction e using Expr.partsInduction generalizing s s' failure with
    | h e ihParts =>
        obtain ⟨raw, rfl, hsurfaces⟩ := Surfaces.of_error h
        refine hsurfaces.unwinds fun {call sub failure s'} hstarts hfails => ?_
        obtain ⟨nesting', e', s₁⟩ := sub
        obtain ⟨rfl, hpart⟩ | hless := hstarts.descends
        · exact ihParts e' hpart hfails
        · exact ihNesting nesting' (by simp at hless; omega) e' hfails

/-- An evaluation that comes to a point where the run fails, fails. -/
theorem FailsIn.fails {ev : Evaluation} {activity : Activity} {raw : Failure}
    (h : FailsIn settings ev activity raw) :
    FailsWith settings ev (raw.locate activity.place)
    (activity.calls.reverse ++ ev.state.calls) := by
  induction h with
  | breaks hbreaks =>
      rw [place_singleton]
      exact hbreaks.fails
  | operates hoperates hrun =>
      rw [place_singleton]
      exact hoperates.fails hrun
  | @tooDeep tree s call body s₁ henters =>
      have hlevel := (henters.inherits hereditary_true trivial s.scope.each_true).2.1
      have hcalls : ((s₁.noted settings call.functionNote).executing call).calls = call
          :: s.calls := by
        simp only [RunState.executing, RunState.noted_calls, hlevel.calls]
        rfl
      have hfails : FailsWith settings ⟨0, tree, s⟩ (Failure.tooDeep.locate tree.loc?) _ :=
        henters.fails rfl
      rwa [hcalls] at hfails
  | within hstarts _ ih =>
      obtain ⟨s₁, hfails, hcalls⟩ := ih
      obtain ⟨hplace, hrecords⟩ := hstarts.unwound _ _
      rw [hplace, hrecords, ← hcalls]
      exact hstarts.fails hfails

/-- An evaluation fails exactly as what is in progress at the point where it fails tells. -/
theorem failsWith_iff_unwinds {ev : Evaluation} {failure : Failure} {calls : List CallRecord} :
    FailsWith settings ev failure calls ↔ Unwinds settings ev failure calls := by
  constructor
  · rintro ⟨s', hfails, rfl⟩
    exact unwinds_of_error ev.nesting ev.tree hfails
  · rintro ⟨activity, raw, hin, rfl, rfl⟩
    exact hin.fails

/-! ## What is in progress -/

/-- The calls of functions are those of user functions, and the operation is a built-in. -/
theorem FailsIn.kinds {ev : Evaluation} {activity : Activity} {raw : Failure}
    (h : FailsIn settings ev activity raw) : (∀ call ∈ activity.functions, call.IsFunction) ∧
      ∀ call ∈ activity.operation, call.IsBuiltin := by
  have hfunction : ∀ {ev call body s₁}, Enters settings ev call body s₁ →
      call.IsFunction := by
    intro ev call body s₁ henters
    cases henters with
    | bare | given => exact ⟨_, _, _, rfl⟩
  induction h with
  | breaks => exact ⟨nofun, nofun⟩
  | operates hoperates =>
      refine ⟨nofun, ?_⟩
      rintro call ⟨⟩
      cases hoperates with
      | full | last => exact ⟨_, _, _, _, rfl⟩
  | tooDeep henters => exact ⟨List.forall_mem_singleton.mpr (hfunction henters), nofun⟩
  | within hstarts _ ih =>
      refine ⟨List.forall_mem_append.mpr ⟨fun call hcall => ?_, ih.1⟩, ih.2⟩
      cases hstarts with
      | body henters =>
          obtain rfl := List.mem_singleton.mp hcall
          exact hfunction henters
      | _ => exact absurd hcall List.not_mem_nil

/-- A failure is raised by the operation that is being run, if there is one. Otherwise the innermost
evaluation fails by itself, or enters a function where calls may not nest any more. -/
def RaisedAt (settings : Settings) (activity : Activity) (raw : Failure) : Prop :=
  ∃ inner, activity.trees.getLast? = some inner.tree ∧
    match activity.operation with
    | some call => ∃ s₁ console, Operates settings inner call s₁ ∧
        runBuiltin call.name call.args (s₁.noted settings call.operationNote).console
          = .error raw console
    | none => Breaks settings inner raw ∨
        raw = .tooDeep ∧ inner.nesting = 0 ∧
          ∃ call body s₁, Enters settings inner call body s₁

theorem FailsIn.raisedAt {ev : Evaluation} {activity : Activity} {raw : Failure}
    (h : FailsIn settings ev activity raw) : RaisedAt settings activity raw := by
  induction h with
  | breaks hbreaks => exact ⟨_, rfl, .inl hbreaks⟩
  | operates hoperates hrun => exact ⟨_, rfl, _, _, hoperates, hrun⟩
  | tooDeep henters => exact ⟨_, rfl, .inr ⟨rfl, rfl, _, _, _, henters⟩⟩
  | within _ _ ih =>
      obtain ⟨inner, hlast, horigin⟩ := ih
      refine ⟨inner, ?_, horigin⟩
      rw [Activity.within, List.getLast?_cons, hlast, Option.getD_some]

/-- What a hereditary property holds of in the beginning, it holds of all along: of every tree that
is under evaluation where the run fails. -/
theorem FailsIn.inherits {P : Expr → Prop} (hP : Hereditary P) {ev : Evaluation}
    {activity : Activity} {raw : Failure} (htree : P ev.tree) (heach : ev.state.scope.Each P)
    (h : FailsIn settings ev activity raw) : ∀ tree ∈ activity.trees, P tree := by
  induction h with
  | breaks | operates | tooDeep => exact List.forall_mem_singleton.mpr htree
  | within hstarts _ ih =>
      obtain ⟨hsub, heach', -⟩ := hstarts.inherits hP htree heach
      exact List.forall_mem_cons.mpr ⟨htree, ih hsub heach'⟩

end ExprLang
