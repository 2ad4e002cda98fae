import SsaKit.Mnemonic
/-!
Target architectures, and the choice of one that is made once.
-/
namespace SsaKit

inductive Arch where
  | x86 | x86_64 | arm | aarch64 | mips | powerpc | sparc | riscv
deriving DecidableEq

namespace Arch

def all : List Arch := [x86, x86_64, arm, aarch64, mips, powerpc, sparc, riscv]

def name : Arch → String
  | x86 => "x86" | x86_64 => "x86-64" | arm => "arm" | aarch64 => "aarch64"
  | mips => "mips" | powerpc => "powerpc" | sparc => "sparc" | riscv => "riscv"

/-- Width of a native pointer. -/
def pointerBits : Arch → Nat
  | x86 | arm | mips | powerpc | sparc => 32
  | x86_64 | aarch64 | riscv => 64

/-- ASCII letters in any case, and an underscore for a hyphen. -/
def parse (text : String) : Except Error Arch :=
  let wanted := text.map fun c => if c = '_' then '-' else c.toLower
  match all.find? fun a => a.name == wanted with
  | some a => .ok a
  | none => .error (.argument s!"unsupported target architecture '{text}'")

/-- Choose an architecture where one may have been chosen before. -/
def choose (chosen : Option Arch) (arch : Arch) : Except Error Arch :=
  match chosen with
  | none => .ok arch
  | some a =>
    if a = arch then .ok a
    else .error (.argument
      s!"target already initialized as {a.name}, cannot switch to {arch.name}")

end Arch
end SsaKit
