import ExprLang.Proofs.Eval.Invariant

/-!
# What is written stays written

A run does nothing to its console but read lines, write texts and add to the log, so what these
respect a run does (`console_stable`). No run takes back anything of what has been written
(`growing_stable`): operations only append to the output, and all other steps leave it alone. A step
of which this is known (`OnlyAdds`) can be followed by others without losing what it wrote.
-/

namespace ExprLang

open EvalM

/-! ## Output that grows -/

/-- The second console has the output of the first, and perhaps more. -/
def Console.Grows (console console' : Console) : Prop :=
  ∃ text, console'.output = console.output ++ text

namespace Console.Grows

variable {console₁ console₂ console₃ : Console}

theorem refl (console : Console) : console.Grows console := ⟨"", by simp⟩

theorem trans (h : console₁.Grows console₂) (h' : console₂.Grows console₃) :
    console₁.Grows console₃ := by
  obtain ⟨text, htext⟩ := h
  obtain ⟨text', htext'⟩ := h'
  exact ⟨text ++ text', by rw [htext', htext, String.append_assoc]⟩

end Console.Grows

/-! ## Steps on the console -/

/-- A relation between a console and the console after it that all uses of a console respect. -/
structure Console.Respected (R : Console → Console → Prop) : Prop where
  refl : ∀ console, R console console
  trans : ∀ {console₁ console₂ console₃}, R console₁ console₂ →
    R console₂ console₃ →
    R console₁ console₃
  read : ∀ console : Console,
    R console { console with input := (Console.splitLine console.input).2 }
  write : ∀ (console : Console) text, R console { console with output := console.output ++ text }
  log : ∀ (console : Console) line, R console (console.logLine line)

theorem Console.grows_respected : Console.Respected Console.Grows where
  refl := Console.Grows.refl
  trans := Console.Grows.trans
  read := fun _ => ⟨"", (String.append_empty).symm⟩
  write := fun _ text => ⟨text, rfl⟩
  log := fun _ _ => ⟨"", (String.append_empty).symm⟩

/-- The console that a step leaves, whichever way it ends. -/
def Console.left {α : Type} : EStateM.Result Failure Console α → Console
  | .ok _ console | .error _ console => console

/-- A step that leaves a console which stands in a relation to the one before. -/
def Leaves {α : Type} (R : Console → Console → Prop) (act : ConsoleM α) : Prop :=
  ∀ console : Console, R console (Console.left (act console))

namespace Leaves

variable {R : Console → Console → Prop}

theorem andPure {α β : Type} {act : ConsoleM α} (h : Leaves R act) (f : α → β) :
    Leaves R (do return f (← act)) := by
  intro console
  have hact := h console
  show R console (Console.left (EStateM.bind act _ console))
  unfold EStateM.bind
  cases hend : act console with
  | ok value console' =>
      rw [hend] at hact
      exact hact
  | error failure console' =>
      rw [hend] at hact
      exact hact

section
variable (hR : Console.Respected R)
include hR

theorem ofExcept (result : Except Failure Expr) : Leaves R (Operation.ofExcept result) := by
  intro console
  cases result with
  | ok => exact hR.refl console
  | error => exact hR.refl console

theorem readLine : Leaves R Console.readLine := by
  intro console
  unfold Console.readLine
  split
  · exact hR.read console
  · exact hR.refl console

theorem write (text : String) : Leaves R (Console.write text) := by
  intro console
  unfold Console.write
  split
  · exact hR.write console text
  · exact hR.refl console

theorem run (operation : Operation) (args : List Expr) : Leaves R (operation.run args) := by
  unfold Operation.run
  split
  · exact ofExcept hR _
  · exact ofExcept hR _
  · exact (readLine hR).andPure _
  · exact (write hR _).andPure _
  · exact hR.refl

theorem runBuiltin (name : String) (args : List Expr) : Leaves R (runBuiltin name args) := by
  unfold ExprLang.runBuiltin
  cases Operation.ofName? name with
  | some operation => exact run hR operation args
  | none => exact hR.refl

end

/-- What a step leaves of its console, it leaves of that of a run. -/
theorem safely (hR : Console.Respected R) {act : ConsoleM Expr} (h : Leaves R act)
    (console : Console) (k : Nat) : Safely (fun _ s => R console s.console)
    (fun _ => True) k (fun _ => True)
      (onConsole act) := by
  intro s hs
  have hleft := hR.trans hs (h s.console)
  unfold EvalM.onConsole
  cases hend : act s.console with
  | ok value console' =>
      rw [hend] at hleft
      exact ⟨trivial, hleft⟩
  | error failure console' =>
      rw [hend] at hleft
      exact ⟨trivial, hleft⟩

end Leaves

/-- A run respects what all uses of a console do. -/
theorem console_stable {R : Console → Console → Prop} (hR : Console.Respected R)
    (settings : Settings) (console : Console) : Stable settings (fun _ => True) (fun _ => True)
      (fun _ s => R console s.console) fun _ => True where
  valued := hereditary_true.valued
  enter := fun hs => hs
  exit := fun hs => hs
  pushFloor := fun hs => hs
  popFloor := fun hs => hs
  pushCall := fun _ hs => hs
  popCall := fun hs => hs
  logged := fun line hs => hR.trans hs (hR.log _ line)
  setLast := fun _ _ hs => hs
  resolve := fun _ _ => trivial
  bindName := fun _ _ _ => Safely.bindName _ _ (fun _ => trivial) fun hs _ => hs
  bindParam := fun _ _ _ => Safely.onScope (fun _ => trivial) fun hs _ => hs
  runBuiltin := fun _ => (Leaves.runBuiltin hR _ _).safely hR console _
  fault := fun _ _ => trivial
  tooDeep := trivial
  stalled := fun _ => trivial

/-! ## Steps of a run -/

/-- The state of a run that has taken back nothing of what a console had. -/
def Growing (console : Console) : Nat → RunState → Prop :=
  fun _ s => console.Grows s.console

/-- A step that takes back nothing of what has been written, and ends with a value as told. -/
def OnlyAdds {α : Type} (k : Nat) (V : α → Prop) (m : EvalM α) : Prop :=
  ∀ console, Safely (Growing console) (fun _ => True) k V m

namespace OnlyAdds

variable {α β : Type} {k : Nat} {V : α → Prop} {U : β → Prop}

theorem grows {m : EvalM α} (h : OnlyAdds k V m) (s : RunState) :
    s.console.Grows (final (m s)).console :=
  (h s.console).final (Console.Grows.refl s.console)

theorem value {m : EvalM α} (h : OnlyAdds k V m) {s s' : RunState} {value : α}
    (hend : m s = .ok value s') : V value := by
  have hsafe := h s.console s (Console.Grows.refl s.console)
  rw [hend] at hsafe
  exact hsafe.1

theorem bind {m : EvalM β} {f : β → EvalM α} (hm : OnlyAdds k U m)
    (hf : ∀ value, U value → OnlyAdds k V (f value)) : OnlyAdds k V (m >>= f) :=
  fun console => Safely.bind (hm console) fun value hvalue => hf value hvalue console

theorem pure {value : α} (h : V value) : OnlyAdds k V (Pure.pure value) :=
  fun _ => Safely.pure h

theorem throw (failure : Failure) : OnlyAdds k V (throw failure : EvalM α) :=
  fun _ => Safely.throw trivial

theorem onScope (f : ScopeStack → Except ScopeError ScopeStack) :
    OnlyAdds k (fun _ => True) (onScope f) :=
  fun _ => Safely.onScope (fun _ => trivial) fun hs _ => hs

theorem bindName (name : String) (value : Expr) :
    OnlyAdds k (fun _ => True) (bindName name value) :=
  fun console s hs => onScope _ console s hs

theorem runBuiltin (name : String) (args : List Expr) :
    OnlyAdds k (fun _ => True) (onConsole (runBuiltin name args)) :=
  fun console => (Leaves.runBuiltin Console.grows_respected name args).safely
    Console.grows_respected
    console k

end OnlyAdds

/-- No run takes back what has been written. -/
theorem growing_stable (settings : Settings) (console : Console) :
    Stable settings (fun _ => True) (fun _ => True) (Growing console) fun _ => True :=
  console_stable Console.grows_respected settings console

end ExprLang
