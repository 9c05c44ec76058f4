import Elaborato.Mentos.ShellLogin

/-!
The records that the login accepts: each call of `user_get` takes one from the file.
-/
namespace Elaborato.Mentos.Login
open Foundation Initrd List Function

variable {s : Fs} {fd it : Nat} {rest : List UInt8} {v : Vfs}

def Left (s : Fs) (fd it : Nat) (rest : List UInt8) (v : Vfs) : Prop :=
  ∃ pos : Nat, Positioned s fd it pos v ∧
    ((s.headers it).length.toNat < 2 ^ 31 ∧ pos ≤ (s.headers it).length.toNat ∧
        rest = (content s it).drop pos ∨
      2 ^ 31 ≤ (s.headers it).length.toNat ∧ rest = [])

variable {stops : UInt8 → Bool} {pre post : List UInt8} {c : UInt8}

section Strings
variable {a b c : List UInt8} {ch : UInt8} {left : Nat}

section
variable (absent : ch ∉ b) (noNul : 0 ∉ b)
include absent noNul

end

def lineReturn (cr : Bool) : List UInt8 := if cr then [carriageReturn] else []

variable {text : List UInt8} {cr : Bool}

end Strings

variable {text : List UInt8} {cr : Bool}

section
variable (none : ∀ b ∈ text ++ lineReturn cr, stops b = false)
include none

end

structure Plain (text : Name) : Prop where
  noNewline : newline ∉ text
  noReturn : carriageReturn ∉ text
  noNul : 0 ∉ text
  noEof : eofChar ∉ text

structure Record where
  user : Name
  password : Name
  cr : Bool
  hasUser : user ≠ []
  shortUser : user.length ≤ 49
  noColon : colon ∉ user
  plainUser : Plain user
  hasPassword : password ≠ []
  shortPassword : (password ++ lineReturn cr).length ≤ 49
  plainPassword : Plain password

def Record.line (r : Record) : List UInt8 :=
  r.user ++ colon :: (r.password ++ lineReturn r.cr)

variable {cwd : Name} {v' : Vfs} {fd : Int} {records : List Record} {ended : Bool}

section
variable (found : scanFiles v.fs passwd = .ok (some it))
  (opened : sysOpen cwd passwd oRdonly v = .ok (fd, v')) (success : 0 ≤ fd)
include found opened success

end

/-- The record `a:b`. -/
def shortRecord : Record where
  user := [97]
  password := [98]
  cr := false
  hasUser := by decide
  shortUser := by decide
  noColon := by decide
  plainUser := ⟨by decide, by decide, by decide, by decide⟩
  hasPassword := by decide
  shortPassword := by decide
  plainPassword := ⟨by decide, by decide, by decide, by decide⟩

def copies (n : Nat) : List Record := List.replicate n shortRecord

end Elaborato.Mentos.Login
