import EmLang.Ast.Printer
import EmLang.Diagnostic.Excerpt
import EmLang.Eval
import EmLang.Lir.Build
import EmLang.Native.Program

/-!
The command: its options, and what it does with a file. A program is run, or with `--native` made
into an assembly listing. The command works over any system that reads and writes files and prints.
-/

namespace EmLang.CommandLine

open Text

/-! ### Options -/

structure Options where
  file : String
  showAst : Bool
  showLir : Bool
  /-- Whether to make a listing instead of running the program. -/
  native : Bool
  /-- Where the listing goes; it is printed without one. -/
  output : Option String
deriving DecidableEq

inductive UsageError where
  | noFile
  | wrongExtension
  | noOutputPath
  | unknownFlag (flag : String)
deriving DecidableEq

def UsageError.message : UsageError → String
  | noFile => "Please provide a .em file to compile"
  | wrongExtension => "File must have .em extension"
  | noOutputPath => "`-o` expects an output path"
  | unknownFlag flag => s!"Unknown command line flag: {flag}"

/-- Reads the arguments after the file. Whatever follows `-o` is a path, and a later one counts. -/
def readFlags (options : Options) : List String → Except UsageError Options
  | [] => .ok options
  | flag :: rest =>
    if flag = "--ast" then readFlags { options with showAst := true } rest
    else if flag = "--lir" then readFlags { options with showLir := true } rest
    else if flag = "--native" then readFlags { options with native := true } rest
    else if flag = "-o" then
      match rest with
      | [] => .error .noOutputPath
      | path :: rest => readFlags { options with native := true, output := some path } rest
    else .error (.unknownFlag flag)

/-- Reads the arguments: a file, then flags. -/
def Options.ofArguments : List String → Except UsageError Options
  | [] => .error .noFile
  | file :: flags =>
    if ".em".toList.isSuffixOf file.toList then readFlags ⟨file, false, false, false, none⟩ flags
    else .error .wrongExtension

def wantsHelp (arguments : List String) : Bool := arguments.any fun a => a = "--help" || a = "-h"

/-- The help text, for a command called by this name. -/
def usage (program : String) : String :=
  s!"Usage: {program} <file.em> [OPTIONS]\n"
    ++ "\n"
    ++ "OPTIONS:\n"
    ++ "  --ast                 Show the resolved AST\n"
    ++ "  --lir                 Show LIR before lowering\n"
    ++ "  --native              Compile to x86-64 assembly instead of evaluating\n"
    ++ "  -o <file.s>           Write assembly to a file (implies --native)\n"
    ++ "  --help, -h            Show this help message\n"
    ++ "\n"
    ++ "EXAMPLES:\n"
    ++ s!"  {program} program.em                     # Run on the evaluator\n"
    ++ s!"  {program} program.em --native -o out.s   # Emit assembly\n"
    ++ s!"  {program} program.em --lir --native      # Show LIR, then assembly\n"

/-! ### The command -/

/-- What the command needs from its surroundings. Files that cannot be read or written give the
reason. -/
structure System (m : Type → Type) where
  read : String → m (Except String String)
  write : String → String → m (Except String Unit)
  print : String → m Unit
  complain : String → m Unit

/-- The bounds of a run: the clock, and how deep evaluation may go. -/
structure Limits where
  clock : Nat → Int64
  fuel : Nat

variable {m : Type → Type} [Monad m]

/-- The message that ends the command after errors in a file. -/
def giveUp (stage file : String) (r : Report) : String :=
  let count := r.errors.length
  let noun := if count = 1 then "error" else "errors"
  s!"Could not {stage} `{file}` due to {count} previous {noun}"

/-- What is said when the command meets a state that no program leads to. -/
def unexpected : Option String → String
  | some message => message
  | none => "internal failure"

def print (system : System m) (text : String) : ExceptT String m Unit :=
  ExceptT.lift (system.print text)

/-- Prints diagnostics apart from other output. -/
def complain (system : System m) : Except Diagnostic.Misplaced String → ExceptT String m Unit
  | .ok text => ExceptT.lift (system.complain text)
  | .error _ => throw (unexpected none)

/-- Runs a program and prints what it prints. -/
def evaluate (system : System m) (limits : Limits) (file : String) (src : Source) (p : Program) :
    ExceptT String m Unit := do
  let (outcome, state) := p.run limits.clock limits.fuel
  print system state.printed
  match outcome with
  | .error fault => throw (unexpected fault.message?)
  | .ok _ =>
    if state.report.hasErrors then
      complain system (state.report.showErrors src)
      throw (giveUp "run" file state.report)

/-- Makes the listing of a program. -/
def assemble (system : System m) (options : Options) (src : Source) (p : Program) :
    ExceptT String m Unit := do
  let built := p.build
  match built.lir with
  | .error (.fault fault) => throw (unexpected fault.message?)
  | .error (.failed _) =>
    complain system (built.report.showErrors src)
    throw (giveUp "generate code for" options.file built.report)
  | .ok lir =>
    if options.showLir then
      match lir.text with
      | some text => print system s!"=== LIR ===\n{text}\n"
      | none => throw (unexpected none)
    match Native.compile lir with
    | .error failure => throw (unexpected failure.message?)
    | .ok listing =>
      match options.output with
      | none => print system listing
      | some path =>
        match ← ExceptT.lift (system.write path listing) with
        | .error reason => throw reason
        | .ok _ => print system s!"Assembly written to: {path}\n"

/-- Compiles a file and does with it what the options say. -/
def process (system : System m) (limits : Limits) (options : Options) : ExceptT String m Unit := do
  match ← ExceptT.lift (system.read options.file) with
  | .error reason => throw s!"Failed to read file '{options.file}': {reason}"
  | .ok text =>
    let src := Source.ofString text
    match Program.compile src.chars with
    | .error r =>
      complain system (r.showErrors src)
      complain system (r.showWarnings src)
      throw (giveUp "compile" options.file r)
    | .ok p =>
      complain system (p.report.showWarnings src)
      if options.showAst then
        match p.ast.print ⟨true⟩ with
        | some tree => print system s!"=== AST ===\n{tree}\n"
        | none => throw (unexpected none)
      if options.native then assemble system options src p
      else evaluate system limits options.file src p

/-- The whole command, called by the name `program`. The result is its exit code. -/
def execute (system : System m) (limits : Limits) (program : String) (arguments : List String) :
    m UInt32 := do
  if wantsHelp arguments then
    system.complain (usage program)
    return 0
  else
    let outcome ← match Options.ofArguments arguments with
      | .ok options => (process system limits options).run
      | .error wrong => do
        system.complain (usage program)
        pure (.error wrong.message)
    match outcome with
    | .ok _ => return 0
    | .error message =>
      system.complain s!"Error: {message}\n"
      return 1

end EmLang.CommandLine
