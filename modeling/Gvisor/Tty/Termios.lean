import Mathlib.Data.List.Infix

/-! The terminal settings that the line discipline of a pty reads
(pkg/abi/linux/tty.go): the input, output and local flags, and the control
characters that end a line. The control flags, the line discipline number and
the speeds are not read there and are left out. -/

namespace Tty

def numControlCharacters : ℕ := 19

/-- The value of a control character that is turned off. -/
def disabledChar : UInt8 := 0

/-- `KernelTermios`, by the fields the line discipline reads. -/
structure KernelTermios where
  inputFlags : UInt32
  outputFlags : UInt32
  localFlags : UInt32
  controlCharacters : Vector UInt8 numControlCharacters
  deriving DecidableEq, Repr

def inlcr : UInt32 := 0o100
def igncr : UInt32 := 0o200
def icrnl : UInt32 := 0o400
def ixon : UInt32 := 0o2000
def iutf8 : UInt32 := 0o40000

def opost : UInt32 := 0o1
def onlcr : UInt32 := 0o4
def ocrnl : UInt32 := 0o10
def onocr : UInt32 := 0o20
def onlret : UInt32 := 0o40
def tabdly : UInt32 := 0o14000
def xtabs : UInt32 := 0o14000

def isig : UInt32 := 0o1
def icanon : UInt32 := 0o2
def echo : UInt32 := 0o10
def echoe : UInt32 := 0o20
def echok : UInt32 := 0o40
def echoctl : UInt32 := 0o1000
def echoke : UInt32 := 0o4000
def iexten : UInt32 := 0o100000

def veof : Fin numControlCharacters := ⟨4, by decide⟩
def veol : Fin numControlCharacters := ⟨11, by decide⟩
def veol2 : Fin numControlCharacters := ⟨16, by decide⟩

/-- `ControlCharacter`: the byte that Ctrl and a letter type. -/
def controlCharacter (c : Char) : UInt8 := c.toUInt8 - 'A'.toUInt8 + 1

/-- `DefaultControlCharacters`; the entries past `VEOL2` are zero. -/
def defaultControlCharacters : Vector UInt8 numControlCharacters :=
  #v[controlCharacter 'C', controlCharacter '\\', 0x7f, controlCharacter 'U', controlCharacter 'D', 0, 1, 0,
    controlCharacter 'Q', controlCharacter 'S', controlCharacter 'Z', 0, controlCharacter 'R',
    controlCharacter 'O', controlCharacter 'W', controlCharacter 'V', 0, 0, 0]

/-- `DefaultSlaveTermios`, the settings of a new pty's slave end. -/
def defaultSlaveTermios : KernelTermios where
  inputFlags := icrnl ||| ixon
  outputFlags := opost ||| onlcr
  localFlags := isig ||| icanon ||| echo ||| echoe ||| echok ||| echoctl ||| echoke ||| iexten
  controlCharacters := defaultControlCharacters

namespace KernelTermios

/-- `IEnabled`. -/
def iEnabled (t : KernelTermios) (flag : UInt32) : Bool := t.inputFlags &&& flag == flag

/-- `OEnabled`. -/
def oEnabled (t : KernelTermios) (flag : UInt32) : Bool := t.outputFlags &&& flag == flag

/-- `LEnabled`. -/
def lEnabled (t : KernelTermios) (flag : UInt32) : Bool := t.localFlags &&& flag == flag

/-- `IsEOF`. -/
def isEOF (t : KernelTermios) (c : UInt8) : Bool :=
  c == t.controlCharacters.get veof && t.controlCharacters.get veof != disabledChar

/-- `IsTerminating`: the cases of its `switch` in order, after the test for
the end-of-file character. -/
def isTerminating (t : KernelTermios) : List UInt8 → Bool
  | [c] =>
    if t.isEOF c then true
    else if c = disabledChar then false
    else if c = 10 ∨ c = t.controlCharacters.get veol then true
    else if c = t.controlCharacters.get veol2 then t.lEnabled iexten
    else false
  | _ => false

theorem isTerminating_of_isEOF {t : KernelTermios} {c : UInt8} (h : t.isEOF c = true) :
    t.isTerminating [c] = true := by
  simp [isTerminating, h]

end KernelTermios

end Tty
