import ExprLang.Operation

/-!
# Consoles that differ in the log

What is on the log is never looked at: a step on the console does the same on two that differ in the
log at most, and leaves two that differ in the log at most (`LogBlind`). So does every operation
(`LogBlind.runBuiltin`).
-/

namespace ExprLang

/-- Consoles that differ in the log at most. -/
def Console.Alike (console console' : Console) : Prop :=
  console.takeLog.2 = console'.takeLog.2

theorem Console.Alike.output {console console' : Console} (h : console.Alike console') :
    console'.output = console.output :=
  (congrArg (·.output) h).symm

/-- The ends of a step on alike consoles: the same value or the same failure, on alike consoles. -/
inductive ConsolesAlike {α : Type} :
    EStateM.Result Failure Console α → EStateM.Result Failure Console α → Prop
  | ok {value : α} {console console' : Console} : console.Alike console' →
      ConsolesAlike (.ok value console) (.ok value console')
  | error {failure : Failure} {console console' : Console} : console.Alike console' →
      ConsolesAlike (.error failure console) (.error failure console')

/-- A step that does the same whatever is on the log. -/
def LogBlind {α : Type} (act : ConsoleM α) : Prop :=
  ∀ console console' : Console, console.Alike console' →
    ConsolesAlike (act console) (act console')

namespace LogBlind

theorem ofExcept (result : Except Failure Expr) : LogBlind (Operation.ofExcept result) := by
  intro console console' h
  cases result with
  | ok value => exact .ok h
  | error failure => exact .error h

theorem throw {α : Type} (failure : Failure) : LogBlind (throw failure : ConsoleM α) :=
  fun _ _ h => .error h

theorem andPure {α β : Type} {act : ConsoleM α} (h : LogBlind act) (f : α → β) :
    LogBlind (do return f (← act)) := by
  intro console console' halike
  show ConsolesAlike (EStateM.bind act _ console) (EStateM.bind act _ console')
  unfold EStateM.bind
  match act console, act console', h console console' halike with
  | _, _, .ok halike' => exact .ok halike'
  | _, _, .error halike' => exact .error halike'

theorem readLine : LogBlind Console.readLine := by
  rintro ⟨input, inputOpen, output, outputOpen, log⟩ ⟨_, _, _, _, log'⟩ h
  obtain ⟨rfl, rfl, rfl, rfl⟩ : _ ∧ _ ∧ _ ∧ _ := by
    simpa [Console.Alike, Console.takeLog] using h
  cases inputOpen with
  | true => exact .ok rfl
  | false => exact .error rfl

theorem write (text : String) : LogBlind (Console.write text) := by
  rintro ⟨input, inputOpen, output, outputOpen, log⟩ ⟨_, _, _, _, log'⟩ h
  obtain ⟨rfl, rfl, rfl, rfl⟩ : _ ∧ _ ∧ _ ∧ _ := by
    simpa [Console.Alike, Console.takeLog] using h
  cases outputOpen with
  | true => exact .ok rfl
  | false => exact .error rfl

theorem run (operation : Operation) (args : List Expr) : LogBlind (operation.run args) := by
  unfold Operation.run
  split
  · exact ofExcept _
  · exact ofExcept _
  · exact readLine.andPure _
  · exact (write _).andPure _
  · exact throw _

theorem runBuiltin (name : String) (args : List Expr) : LogBlind (runBuiltin name args) := by
  unfold ExprLang.runBuiltin
  cases Operation.ofName? name with
  | some operation => exact run operation args
  | none => exact throw _

end LogBlind

end ExprLang
