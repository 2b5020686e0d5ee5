import LineScript.Proofs.Scopes
import LineScript.Proofs.Structured.Syntax

/-!
# The meaning of structured programs

A recursive evaluator for structured programs.  The variables are one flat list without shadowing,
and what a block declares is dropped at its end.  A loop has a scope of its own around that of its
body, in which the first and the last part of a `for` header act.

`exec n` lets every loop run at most `n` times, counted anew whenever the loop is entered; a run
that needs more is unfinished.
-/

namespace LineScript

structure Env where
  symbols : Symbols := {}
  output : String := ""
  deriving DecidableEq, Repr

namespace Env

def push (env : Env) : Env :=
  { env with symbols := env.symbols.push }

def pop (env : Env) : Env :=
  { env with symbols := env.symbols.pop }

def look (env : Env) (name : String) : Except Cause Value :=
  (env.symbols.lookup name).map Variable.value

def test (env : Env) (e : Expr) : Except Cause Bool := do
  match ← e.eval env.look with
  | .bool b => return b
  | v => throw (.mismatch (.condition v))

theorem test_eq (env : Env) (e : Expr) :
    env.test e = (e.eval env.look).bind fun v =>
      match v with
      | .bool b => .ok b
      | v => .error (.mismatch (.condition v)) := by
  rw [test, Except.bind_eq_bind]
  congr

end Env

inductive Ending where
  | normal
  /-- A `break` or `continue` that has not found its loop. -/
  | signal (s : Signal)
  deriving DecidableEq, Repr

inductive Result where
  | done (ending : Ending) (env : Env)
  | failed
  | unfinished
  deriving DecidableEq, Repr

namespace Result

def ofExcept : Except Cause Env → Result
  | .ok env => .done .normal env
  | .error _ => .failed

def andThen (r : Result) (next : Env → Result) : Result :=
  match r with
  | .done .normal env => next env
  | r => r

def leave : Result → Result
  | .done ending env => .done ending env.pop
  | r => r

/-- What follows a run through the body of a loop: a `break` ends the loop, anything else
goes on. -/
def iterate (r : Result) (next : Env → Result) : Result :=
  match r with
  | .done (.signal .break) env => .done .normal env
  | .done _ env => next env
  | r => r

end Result

def enclosed (run : Env → Result) (env : Env) : Result :=
  (run env.push).leave

def Assignment.assigned (symbols : Symbols) (v : Value) : Assignment → Except Cause Symbols
  | .declare t x _ => symbols.add x t v .declaration
  | .set x _ =>
      if symbols.contains x then symbols.update x v else symbols.add x v.type v .declaration
  | .change op x _ => do
      let old ← symbols.lookup x
      match op.operation? with
      | some base =>
          let w ← base.applyBetween old.value v
          symbols.update x w
      | none => throw (.cannotReduce op.symbol)

def Assignment.exec (a : Assignment) (env : Env) : Result :=
  .ofExcept do
    let v ← a.value.eval env.look
    let symbols ← a.assigned env.symbols v
    return { env with symbols }

def Operand.value (env : Env) : Operand → Except Cause Value
  | .literal v => .ok v
  | .name s => env.look s

def operandValues (env : Env) : List Operand → Except Cause (List Value)
  | [] => .ok []
  | o :: rest => do
      let v ← o.value env
      let vs ← operandValues env rest
      return v :: vs

def Env.println (env : Env) (operands : List Operand) : Result :=
  .ofExcept do
    let vs ← operandValues env operands
    return { env with output := env.output ++ " ".intercalate (vs.map Value.text) ++ "\n" }

def repeated (e : Expr) (body step : Env → Result) : Nat → Env → Result
  | 0, _ => .unfinished
  | n + 1, env =>
      match env.test e with
      | .error _ => .failed
      | .ok false => .done .normal env
      | .ok true => (body env).iterate fun env => (step env).andThen (repeated e body step n)

def branched (e : Expr) (body rest : Env → Result) (env : Env) : Result :=
  match env.test e with
  | .error _ => .failed
  | .ok true => enclosed body env
  | .ok false => rest env

mutual

def Statement.exec (n : Nat) : Statement → Env → Result
  | .assign a, env => a.exec env
  | .println operands, env => env.println operands
  | .block body, env => enclosed (body.exec n) env
  | .branch e body rest, env => branched e (body.exec n) (rest.exec n) env
  | .while e body, env => enclosed (repeated e (enclosed (body.exec n)) (.done .normal) n) env
  | .for init e step body, env =>
      enclosed (fun env => (init.exec env).andThen
        (repeated e (enclosed (body.exec n)) step.exec n)) env
  | .signal s, env => .done (.signal s) env

def Body.exec (n : Nat) : Body → Env → Result
  | .nil, env => .done .normal env
  | .cons first rest, env => (first.exec n env).andThen (rest.exec n)

def Alternatives.exec (n : Nat) : Alternatives → Env → Result
  | .none, env => .done .normal env
  | .otherwise body, env => enclosed (body.exec n) env
  | .elseIf e body rest, env => branched e (body.exec n) (rest.exec n) env

end

/-!
## Scopes

Every statement closes the scopes that it opens, also when a signal passes through it.
-/

def Keeps (run : Env → Result) : Prop :=
  ∀ env ending env', run env = .done ending env' → env'.symbols.depth = env.symbols.depth

theorem Assignment.depth_assigned {a : Assignment} {symbols symbols' : Symbols} {v : Value}
    (assigned : a.assigned symbols v = .ok symbols') : symbols'.depth = symbols.depth := by
  cases a with
  | declare t x e => exact (Symbols.grows_add assigned).depth
  | set x e =>
      simp only [Assignment.assigned] at assigned
      split at assigned
      · exact (Symbols.grows_update assigned).depth
      · exact (Symbols.grows_add assigned).depth
  | change op x e =>
      simp only [Assignment.assigned, Except.bind_eq_bind] at assigned
      cases look : symbols.lookup x with
      | error cause => simp [look] at assigned
      | ok old =>
          simp only [look, Except.bind_ok] at assigned
          split at assigned
          · rename_i base _
            cases applied : base.applyBetween old.value v with
            | error cause => simp [applied] at assigned
            | ok w =>
                simp only [applied, Except.bind_ok] at assigned
                exact (Symbols.grows_update assigned).depth
          · cases assigned

theorem Assignment.keeps (a : Assignment) : Keeps a.exec := by
  intro env ending env' done
  simp only [Assignment.exec, Except.bind_eq_bind] at done
  cases evaluated : a.value.eval env.look with
  | error cause => simp [evaluated, Result.ofExcept] at done
  | ok v =>
      simp only [evaluated, Except.bind_ok] at done
      cases assigned : a.assigned env.symbols v with
      | error cause => simp [assigned, Result.ofExcept] at done
      | ok symbols =>
          simp only [assigned, Except.bind_ok, Except.pure_eq_ok, Result.ofExcept,
            Result.done.injEq] at done
          rw [← done.2]
          exact a.depth_assigned assigned

theorem keeps_println (operands : List Operand) : Keeps fun env => env.println operands := by
  intro env ending env' done
  simp only [Env.println, Except.bind_eq_bind] at done
  cases values : operandValues env operands with
  | error cause => simp [values, Result.ofExcept] at done
  | ok vs =>
      simp only [values, Except.bind_ok, Except.pure_eq_ok, Result.ofExcept,
        Result.done.injEq] at done
      rw [← done.2]

theorem Keeps.enclosed {run : Env → Result} (keeps : Keeps run) : Keeps (enclosed run) := by
  intro env ending env' done
  rw [LineScript.enclosed] at done
  cases result : run env.push with
  | done ending' inner =>
      rw [result] at done
      cases done
      have := keeps _ _ _ result
      simp only [Env.pop, Env.push, Symbols.depth_pop, Symbols.depth_push] at this ⊢
      omega
  | failed => simp [result, Result.leave] at done
  | unfinished => simp [result, Result.leave] at done

theorem Keeps.andThen {first : Env → Result} {next : Env → Result} (keeps : Keeps first)
    (keepsNext : Keeps next) : Keeps fun env => (first env).andThen next := by
  intro env ending env' done
  simp only at done
  cases result : first env with
  | done ending' inner =>
      have depth := keeps _ _ _ result
      rw [result] at done
      cases ending' with
      | normal => exact (keepsNext _ _ _ done).trans depth
      | signal s =>
          cases done
          exact depth
  | failed => simp [result, Result.andThen] at done
  | unfinished => simp [result, Result.andThen] at done

theorem Keeps.branched {e : Expr} {body rest : Env → Result} (keepsBody : Keeps body)
    (keepsRest : Keeps rest) : Keeps (branched e body rest) := by
  intro env ending env' done
  rw [LineScript.branched] at done
  split at done
  · cases done
  · exact keepsBody.enclosed _ _ _ done
  · exact keepsRest _ _ _ done

theorem Keeps.repeated {e : Expr} {body step : Env → Result} (keepsBody : Keeps body)
    (keepsStep : Keeps step) (n : Nat) : Keeps (repeated e body step n) := by
  induction n with
  | zero =>
      intro env ending env' done
      cases done
  | succ n ih =>
      intro env ending env' done
      rw [LineScript.repeated] at done
      split at done
      · cases done
      · cases done
        rfl
      · cases result : body env with
        | done ending' inner =>
            have depth := keepsBody _ _ _ result
            rw [result] at done
            unfold Result.iterate at done
            split at done
            · rename_i same
              cases same
              cases done
              exact depth
            · rename_i same
              cases same
              exact (keepsStep.andThen ih _ _ _ done).trans depth
            · cases done
              exact depth
        | failed => simp [result, Result.iterate] at done
        | unfinished => simp [result, Result.iterate] at done

mutual

theorem Statement.keeps (n : Nat) : (s : Statement) → Keeps (s.exec n)
  | .assign a => a.keeps
  | .println operands => keeps_println operands
  | .block body => (body.keeps n).enclosed
  | .branch _ body rest => (body.keeps n).branched (rest.keeps n)
  | .while _ body => ((body.keeps n).enclosed.repeated (by rintro _ _ _ ⟨⟩; rfl) n).enclosed
  | .for init _ step body =>
      (init.keeps.andThen ((body.keeps n).enclosed.repeated step.keeps n)).enclosed
  | .signal _ => by rintro _ _ _ ⟨⟩; rfl

theorem Body.keeps (n : Nat) : (b : Body) → Keeps (b.exec n)
  | .nil => by rintro _ _ _ ⟨⟩; rfl
  | .cons first rest => (first.keeps n).andThen (rest.keeps n)

theorem Alternatives.keeps (n : Nat) : (r : Alternatives) → Keeps (r.exec n)
  | .none => by rintro _ _ _ ⟨⟩; rfl
  | .otherwise body => (body.keeps n).enclosed
  | .elseIf _ body rest => (body.keeps n).branched (rest.keeps n)

end

/-!
## Whole programs
-/

/-- The program ends with the given variables and output. -/
def Body.Yields (body : Body) (bindings : List (String × Variable)) (output : String) : Prop :=
  ∃ n env, body.exec n {} = .done .normal env ∧ env.symbols.bindings = bindings ∧
    env.output = output

/-- The program fails, or ends with a `break` or `continue` outside of a loop. -/
def Body.GoesWrong (body : Body) : Prop :=
  ∃ n, body.exec n {} = .failed ∨ ∃ s env, body.exec n {} = .done (.signal s) env

end LineScript
