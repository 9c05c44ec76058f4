import Mathlib.Algebra.Order.Ring.Int

/-!
Formatted output (vsprintf.c) and `atoi` (stdio.c), without floating point numbers.
-/
namespace Elaborato.Mentos.Vsprintf

/-- The value of an `int` or a `long`. -/
def wrap32 (x : Int) : Int := x.bmod (2 ^ 32)

def signed (word : UInt32) : Int := word.toInt32.toInt

def char (c : Char) : UInt8 := UInt8.ofNat c.toNat

def isdigit (c : UInt8) : Bool := 48 ≤ c && c ≤ 57

def digits : List UInt8 := "0123456789abcdefghijklmnopqrstuvwxyz".toList.map char

def upperDigits : List UInt8 := "0123456789ABCDEFGHIJKLMNOPQRSTUVWXYZ".toList.map char

structure Flags where
  zeropad : Bool
  left : Bool
  plus : Bool
  space : Bool
  hash : Bool
  uppercase : Bool
  sign : Bool
  deriving DecidableEq, Repr

def noFlags : Flags := ⟨false, false, false, false, false, false, false⟩

def fillLoop (c : UInt8) (low : Int) : ℕ → Int → List UInt8 × Int
  | 0, n => ([], n)
  | fuel + 1, n =>
    if low < n then
      let (text, n) := fillLoop c low fuel (wrap32 (n - 1))
      (c :: text, n)
    else ([], wrap32 (n - 1))

def fill (c : UInt8) (low n : Int) : List UInt8 × Int := fillLoop c low ((n - low).toNat + 1) n

/-- The loop `while (--n > 0) *str++ = c`. -/
def fillBelow (c : UInt8) (n : Int) : List UInt8 × Int :=
  let n := wrap32 (n - 1)
  (List.replicate n.toNat c, if 0 < n then 0 else n)

def digitLoop (dig : List UInt8) (base : ℕ) : ℕ → ℕ → List UInt8
  | 0, _ => []
  | fuel + 1, n =>
    if n = 0 then [] else dig.getD (n % base) 0 :: digitLoop dig base fuel (n / base)

def takeSign (type : Flags) (num size : Int) : Option UInt8 × Int × Int :=
  if type.sign then
    if num < 0 then (some (char '-'), wrap32 (-num), wrap32 (size - 1))
    else if type.plus then (some (char '+'), num, wrap32 (size - 1))
    else if type.space then (some (char ' '), num, wrap32 (size - 1))
    else (none, num, size)
  else (none, num, size)

def takeHash (type : Flags) (base size : Int) : Int :=
  if type.hash then
    if base = 16 then wrap32 (size - 2) else if base = 8 then wrap32 (size - 1) else size
  else size

def hashText (type : Flags) (base : Int) : List UInt8 :=
  if type.hash then
    if base = 8 then [char '0']
    else if base = 16 then [char '0', digits.getD 33 0] else []
  else []

def numberDigits (dig : List UInt8) (base unsNum : ℕ) : List UInt8 :=
  if unsNum = 0 then [char '0'] else digitLoop dig base 66 unsNum

def padIf (run : Bool) (c : UInt8) (size : Int) : List UInt8 × Int :=
  if run then fill c 0 size else ([], size)

structure Frame where
  spaces : List UInt8
  padding : List UInt8
  zeros : List UInt8
  trailing : List UInt8

def frame (type : Flags) (i size precision : Int) : Frame :=
  let c := if type.zeropad then char '0' else char ' '
  let precision := if i > precision then i else precision
  let size := wrap32 (size - precision)
  let (spaces, size) := padIf (!(type.zeropad || type.left)) (char ' ') size
  let (padding, size) := padIf (!type.left) c size
  let (zeros, _) := fill (char '0') i precision
  let (trailing, _) := fill (char ' ') 0 size
  ⟨spaces, padding, zeros, trailing⟩

def place (frame : Frame) (sign hash tmp : List UInt8) : List UInt8 :=
  frame.spaces ++ sign ++ hash ++ frame.padding ++ frame.zeros ++ tmp.reverse ++ frame.trailing

def number (num base size precision : Int) (type : Flags) : Option (List UInt8) :=
  let dig := if type.uppercase then upperDigits else digits
  let type := if type.left then { type with zeropad := false } else type
  if base < 2 ∨ base > 36 then none
  else
    let (sign, num, size) := takeSign type num size
    let unsNum := (num % 2 ^ 32).toNat
    let size := takeHash type base size
    let tmp := numberDigits dig base.toNat unsNum
    some (place (frame type tmp.length size precision) sign.toList (hashText type base) tmp)

def padText (text : List UInt8) (size : Int) (left : Bool) : List UInt8 :=
  let len : Int := text.length
  let (before, size) := if !left then fill (char ' ') len size else ([], size)
  let (after, _) := fill (char ' ') len size
  before ++ text ++ after

def eaddr (addr : List UInt8) (size : Int) (type : Flags) : List UInt8 :=
  let dig := if type.uppercase then upperDigits else digits
  let pairs := addr.map fun b => [dig.getD (b.toNat / 16) 0, dig.getD (b.toNat % 16) 0]
  padText ([char ':'].intercalate pairs) size type.left

/-- One part of an Internet address. -/
def iaddrPart (b : UInt8) : List UInt8 :=
  let n := b.toNat
  if n = 0 then [digits.getD 0 0]
  else if n ≥ 100 then
    [digits.getD (n / 100) 0, digits.getD (n % 100 / 10) 0, digits.getD (n % 100 % 10) 0]
  else if n ≥ 10 then [digits.getD (n / 10) 0, digits.getD (n % 10) 0]
  else [digits.getD n 0]

def iaddr (addr : List UInt8) (size : Int) (type : Flags) : List UInt8 :=
  padText ([char '.'].intercalate (addr.map iaddrPart)) size type.left

section Formats

def skipAtoi : List UInt8 → Int → Int × List UInt8
  | [], i => (i, [])
  | c :: fmt, i =>
    let i := wrap32 (i * 10 + c.toNat - 48)
    match fmt with
    | [] => (i, [])
    | d :: rest => if isdigit d then skipAtoi (d :: rest) i else (i, d :: rest)

def parseFlags : List UInt8 → Flags → Flags × List UInt8
  | [], flags => (flags, [])
  | c :: fmt, flags =>
    if c = char '-' then parseFlags fmt { flags with left := true }
    else if c = char '+' then parseFlags fmt { flags with plus := true }
    else if c = char ' ' then parseFlags fmt { flags with space := true }
    else if c = char '#' then parseFlags fmt { flags with hash := true }
    else if c = char '0' then parseFlags fmt { flags with zeropad := true }
    else (flags, c :: fmt)

structure Field where
  flags : Flags
  width : Int
  precision : Int
  qualifier : Option UInt8
  arg : ℕ

variable (stack : ℕ → UInt32)

def parseWidth (arg : ℕ) (flags : Flags) : List UInt8 → Field × List UInt8
  | [] => (⟨flags, -1, -1, none, arg⟩, [])
  | c :: fmt =>
    if isdigit c then
      let (width, fmt) := skipAtoi (c :: fmt) 0
      (⟨flags, width, -1, none, arg⟩, fmt)
    else if c = char '*' then
      let width := signed (stack arg)
      if width < 0 then (⟨{ flags with left := true }, wrap32 (-width), -1, none, arg + 1⟩, fmt)
      else (⟨flags, width, -1, none, arg + 1⟩, fmt)
    else (⟨flags, -1, -1, none, arg⟩, c :: fmt)

/-- The precision behind the point. -/
def pointPrecision (field : Field) : List UInt8 → Field × List UInt8
  | [] => ({ field with precision := 0 }, [])
  | c :: fmt =>
    if isdigit c then
      let (precision, fmt) := skipAtoi (c :: fmt) 0
      ({ field with precision := if precision < 0 then 0 else precision }, fmt)
    else if c = char '*' then
      let precision := signed (stack field.arg)
      ({ field with precision := if precision < 0 then 0 else precision, arg := field.arg + 1 },
        fmt)
    else ({ field with precision := 0 }, c :: fmt)

def parsePrecision (field : Field) : List UInt8 → Field × List UInt8
  | [] => (field, [])
  | c :: fmt => if c = char '.' then pointPrecision stack field fmt else (field, c :: fmt)

def parseQualifier (field : Field) : List UInt8 → Field × List UInt8
  | [] => (field, [])
  | c :: fmt =>
    if c = char 'h' ∨ c = char 'l' ∨ c = char 'L' then ({ field with qualifier := some c }, fmt)
    else (field, c :: fmt)

def parseField (arg : ℕ) (fmt : List UInt8) : Field × List UInt8 :=
  let (flags, fmt) := parseFlags fmt noFlags
  let (field, fmt) := parseWidth stack arg flags fmt
  let (field, fmt) := parsePrecision stack field fmt
  parseQualifier field fmt

end Formats

structure Env where
  stack : ℕ → UInt32
  mem : UInt32 → UInt8
  flt : UInt64 → Int → Int → UInt8 → Flags → List UInt8

structure Out where
  text : List UInt8
  arg : ℕ
  stored : List (UInt32 × UInt32)

def textAt (mem : UInt32 → UInt8) : ℕ → UInt32 → List UInt8
  | 0, _ => []
  | n + 1, s => if mem s = 0 then [] else mem s :: textAt mem n (s + 1)

/-- The argument of an integer conversion. -/
def integerArg (field : Field) (word : UInt32) : Int :=
  if field.qualifier = some (char 'h') then
    if field.flags.sign then word.toUInt16.toInt16.toInt else word.toUInt16.toNat
  else signed word

def integer (env : Env) (field : Field) (base : Int) (out : Out) : Option Out := do
  let num := integerArg field (env.stack field.arg)
  let text ← number num base field.width field.precision field.flags
  some { out with text := out.text ++ text, arg := field.arg + 1 }

def charConversion (env : Env) (field : Field) : List UInt8 :=
  let c := (env.stack field.arg).toUInt8
  let (before, width) :=
    if !field.flags.left then fillBelow (char ' ') field.width else ([], field.width)
  before ++ [c] ++ (fillBelow (char ' ') width).1

def stringConversion (env : Env) (field : Field) : List UInt8 :=
  let s := env.stack field.arg
  let count := (field.precision % 2 ^ 32).toNat
  let text := if s = 0 then ("<NULL>".toList.map char).take count else textAt env.mem count s
  let len := wrap32 text.length
  let (before, width) :=
    if !field.flags.left then fill (char ' ') len field.width else ([], field.width)
  before ++ text.take len.toNat ++ (fill (char ' ') len width).1

def pointerConversion (env : Env) (field : Field) (out : Out) : Option Out := do
  let field := if field.width = -1 then
    { field with width := 8, flags := { field.flags with zeropad := true } } else field
  let text ← number (signed (env.stack field.arg)) 16 field.width field.precision field.flags
  some { out with text := out.text ++ text, arg := field.arg + 1 }

def addressConversion (env : Env) (field : Field) : List UInt8 :=
  let addr := env.stack field.arg
  let bytes (n : ℕ) := (List.range n).map fun i => env.mem (addr + UInt32.ofNat i)
  if field.qualifier = some (char 'l') then eaddr (bytes 6) field.width field.flags
  else iaddr (bytes 4) field.width field.flags

def isFloat (c : UInt8) : Bool := c ∈ ("EGefg".toList.map char)

/-- The conversion by its character. -/
def convert (env : Env) (field : Field) (c : UInt8) (out : Out) : Option Out :=
  let next := field.arg + 1
  if c = char 'c' then
    some { out with text := out.text ++ charConversion env field, arg := next }
  else if c = char 's' then
    some { out with text := out.text ++ stringConversion env field, arg := next }
  else if c = char 'p' then pointerConversion env field out
  else if c = char 'n' then
    some { out with arg := next,
                    stored := out.stored ++
                      [(env.stack field.arg, UInt32.ofNat out.text.length)] }
  else if c = char 'A' then
    integer env { field with flags := { field.flags with uppercase := true } } 10 out
  else if c = char 'a' then
    some { out with text := out.text ++ addressConversion env field, arg := next }
  else if c = char 'o' then integer env field 8 out
  else if c = char 'X' then
    integer env { field with flags := { field.flags with uppercase := true } } 10 out
  else if c = char 'x' then integer env field 16 out
  else if c = char 'd' ∨ c = char 'i' then
    integer env { field with flags := { field.flags with sign := true } } 10 out
  else if c = char 'u' then integer env field 10 out
  else if isFloat c then
    let low := env.stack field.arg
    let high := env.stack (field.arg + 1)
    let text := env.flt (low.toUInt64 ||| high.toUInt64 <<< 32) field.width field.precision c
      { field.flags with sign := true }
    some { out with text := out.text ++ text, arg := field.arg + 2 }
  else
    let percent := if c = char '%' then [] else [char '%']
    some { out with text := out.text ++ percent ++ [c], arg := field.arg }

def vsprintfLoop (env : Env) : ℕ → List UInt8 → Out → Option Out
  | _, [], out => some out
  | 0, _ :: _, _ => none
  | fuel + 1, c :: fmt, out =>
    if c = char '%' then
      match parseField env.stack out.arg fmt with
      | (field, []) => some { out with text := out.text ++ [char '%'], arg := field.arg }
      | (field, c :: rest) => do
          let out ← convert env field c out
          vsprintfLoop env fuel rest out
    else vsprintfLoop env fuel fmt { out with text := out.text ++ [c] }

def sprintf (env : Env) (fmt : List UInt8) : Option (List UInt8) :=
  (vsprintfLoop env fmt.length fmt ⟨[], 0, []⟩).map Out.text

/-- The digits of the text, from the left. -/
def atoiLoop (str : List UInt8) : Int :=
  str.foldl (fun result c => wrap32 (wrap32 (wrap32 (result * 10) + c.toNat) - 48)) 0

def atoi (str : List UInt8) : Int :=
  let sign : Int := if str.headD 0 = char '-' then -1 else 1
  let rest := if sign = -1 then str.tail else str
  if rest.all isdigit then wrap32 (sign * atoiLoop rest) else -1

end Elaborato.Mentos.Vsprintf
