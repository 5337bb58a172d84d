import ExprLang.Expr.Dump
import ExprLang.Main
import ExprLang.Proofs.Eval.Triple
import ExprLang.Proofs.Expr.Induction
import ExprLang.Proofs.Scope.Frames
import ExprLang.Proofs.Eval.FrameLaw
import ExprLang.Proofs.Expr.Unlocated
import ExprLang.Proofs.Grammar
import ExprLang.Proofs.Reader.Run
import ExprLang.Proofs.Reader.Completeness
import ExprLang.Proofs.Reader.Soundness
import ExprLang.Proofs.Token.Placement
import ExprLang.Proofs.Reader.Acceptance
import ExprLang.Proofs.Token.Spelling
import ExprLang.Proofs.Grammar.Yields
import ExprLang.Proofs.Printer.Writes
import ExprLang.Proofs.Printer.RoundTrip
import ExprLang.Proofs.Eval.Lockstep
import ExprLang.Proofs.Eval.Overlay
import ExprLang.Proofs.Session.Script
import ExprLang.Proofs.Eval.Congruence
import ExprLang.Proofs.Eval.Invariant
import ExprLang.Proofs.Eval.Limits
import ExprLang.Proofs.Eval.Termination
import ExprLang.Proofs.Expr.Plain
import ExprLang.Proofs.Eval.Calls
import ExprLang.Proofs.Reader.Viability
import ExprLang.Proofs.Reader.Refusal
import ExprLang.Proofs.Eval.Balance
import ExprLang.Proofs.Eval.Activity
import ExprLang.Proofs.Eval.Failing
import ExprLang.Proofs.Eval.Unwinding
import ExprLang.Proofs.Reader.Anchors
import ExprLang.Proofs.Session.Step
import ExprLang.Proofs.Session.Stacktrace
import ExprLang.Proofs.Session.Blame
import ExprLang.Proofs.Session.Survival
import ExprLang.Proofs.Eval.OnlyValues
import ExprLang.Proofs.Eval.Reach
import ExprLang.Proofs.Session.Kept
import ExprLang.Proofs.Session.Values
import ExprLang.Proofs.Session.Reports
import ExprLang.Proofs.Reader.Overlong
import ExprLang.Proofs.CommandLine
import ExprLang.Proofs.Excerpt
import ExprLang.Proofs.Session.Shown
import ExprLang.Proofs.Token.Formed
import ExprLang.Proofs.Reader.Shape
import ExprLang.Proofs.Eval.Books
import ExprLang.Proofs.Session.Books
import ExprLang.Proofs.Expr.Renamed
import ExprLang.Proofs.Scope.Renamed
import ExprLang.Proofs.Operation.Renamed
import ExprLang.Proofs.Eval.Renaming
import ExprLang.Proofs.Console.Events
import ExprLang.Proofs.Eval.Journal
import ExprLang.Proofs.ConsoleUse
import ExprLang.Proofs.Token.Elsewhere
import ExprLang.Proofs.Token.Parts
import ExprLang.Proofs.Expr.Moved
import ExprLang.Proofs.Reader.Concatenation
import ExprLang.Proofs.Reader.Taken
import ExprLang.Proofs.Reader.Sugar
import ExprLang.Proofs.Reader.Rewriting
import ExprLang.Proofs.Console.Alike
import ExprLang.Proofs.Scope.Agreement
import ExprLang.Proofs.Eval.Unrelated
import ExprLang.Proofs.Eval.Deeds
import ExprLang.Proofs.Session.Tracing
import ExprLang.Proofs.Expr.Equality
import ExprLang.Proofs.Session.TypedBack
import ExprLang.Proofs.Eval.Lets
import ExprLang.Proofs.Reader.Layout
import ExprLang.Proofs.Token.Order
import ExprLang.Proofs.Reader.Places
import ExprLang.Proofs.Operation.Outcome
import ExprLang.Proofs.Operation.Arithmetic
import ExprLang.Proofs.Numerals
import ExprLang.Proofs.Excerpt.Window
import ExprLang.Proofs.Token.Partition
