import PktBaffle.EbpfCodegen
import PktBaffle.Parser

namespace PktBaffle.Lib
open Classic (LinkType)

inductive Target where
  | classic
  | extended
  deriving DecidableEq, Repr

/-- A compiled filter for one of the targets. -/
inductive Program where
  | classic (insns : List Bpf.Insn)
  | extended (insns : List Ebpf.Insn)
  deriving DecidableEq

/-- Parse a filter expression without generating code. -/
def parse (filter : String) : Except Error Expr := do
  let tokens ← Lexer.lex filter
  Parsing.parse tokens

/-- Parse and compile a filter expression. -/
def compile (filter : String) (link : LinkType) (target : Target) : Except Error Program := do
  let tokens ← Lexer.lex filter
  let ast ← Parsing.parse tokens
  match target with
  | .classic => (Classic.compile ast link).map .classic
  | .extended => (Extended.compile ast link).map .extended

variable {filter : String} {link : LinkType} {ast : Expr} {prog : Program}

theorem compile_classic (h : parse filter = .ok ast) :
    compile filter link .classic = (Classic.compile ast link).map .classic := by
  calc compile filter link .classic
      = parse filter >>= fun ast => (Classic.compile ast link).map .classic := by
        simp only [compile, parse, bind_assoc]
    _ = (Classic.compile ast link).map .classic := by rw [h]; rfl

theorem compile_extended (h : parse filter = .ok ast) :
    compile filter link .extended = (Extended.compile ast link).map .extended := by
  calc compile filter link .extended
      = parse filter >>= fun ast => (Extended.compile ast link).map .extended := by
        simp only [compile, parse, bind_assoc]
    _ = (Extended.compile ast link).map .extended := by rw [h]; rfl

end PktBaffle.Lib
