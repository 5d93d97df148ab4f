import EmLang.Native.Layout
import EmLang.Native.Listing
import EmLang.Native.Lowering

/-!
Whole programs as machine code. Functions are lowered one after the other and each in its place, so
that those before a failing one stay lowered.
-/

namespace EmLang.Native

open Lir

/-- The machine code of function number `f`, with the blocks it is for. -/
def functionCode (lir : Lir) (f : Nat) :
    Except Failure (List BlockId × List (List Instr) × FunctionReport) := do
  let function ← lir.getFunction f
  let flow ← Flow.of lir function
  let liveness ← Liveness.of lir function flow
  let (code, report) ← lowerFunction lir function flow liveness
  return (flow.blocks, code, report)

def lowerInPlace (lir : Lir) (f : Nat) : Lir × Except Failure FunctionReport :=
  match functionCode lir f with
  | .error failure => (lir, .error failure)
  | .ok (blocks, code, report) =>
    let lir := (blocks.zip code).foldl (fun lir (b, is) => Layout.setCode lir b is) lir
    match Layout.finalize lir f with
    | (lir, some failure) => (lir, .error failure)
    | (lir, none) =>
      match Layout.verify lir f with
      | some failure => (lir, .error failure)
      | none => (lir, .ok report)

/-- A program that was lowered as far as possible. -/
structure Lowered where
  lir : Lir
  reports : List FunctionReport
  failure : Option Failure

/-- Lowers the functions with these numbers, until one fails. -/
def lowerEach (lir : Lir) : List Nat → Lowered
  | [] => ⟨lir, [], none⟩
  | f :: fs =>
    match lowerInPlace lir f with
    | (lir, .error failure) => ⟨lir, [], some failure⟩
    | (lir, .ok report) =>
      let rest := lowerEach lir fs
      { rest with reports := report :: rest.reports }

def lower (lir : Lir) : Lowered := lowerEach lir (List.range lir.functions.size)

def Lowered.listing (lowered : Lowered) : Except Failure String :=
  match lowered.failure with
  | some failure => .error failure
  | none => Listing.of lowered.lir

/-- The assembly listing of a program. -/
def compile (lir : Lir) : Except Failure String := (lower lir).listing

end EmLang.Native
