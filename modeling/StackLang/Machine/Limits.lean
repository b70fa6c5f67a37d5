/-!
# Limits of a run

A machine bounds the height of its stack, the number of instructions it runs, and the number
of calls that are open at a time. Limits are 64-bit words, and the largest word is the default.
-/

set_option autoImplicit false

namespace StackLang

/-- The largest word, which no count of a run can pass in practice. -/
def unbounded : UInt64 := .ofNat (UInt64.size - 1)

/-- The limits of a machine. -/
structure Limits where
  /-- The greatest height to which a push may raise the stack. -/
  stack : UInt64 := unbounded
  /-- The greatest number of instructions. -/
  operations : UInt64 := unbounded
  /-- The greatest number of open calls. -/
  depth : UInt64 := unbounded
deriving DecidableEq

end StackLang
