/-
  Accumulator/Fault.lean
  ======================
  **Faults: why a running program is stopped.**

  A fault ends a program.  One of its causes lies outside the machine: the host may
  fail to take the program's output, and the fault then says in what way.
-/

namespace Accumulator

/-- The ways in which output fails.  A write that is interrupted is taken up again, so it is not a
write that fails as `interrupted`, but a flush or a host of another kind can. -/
inductive IoFailure where
  | addrInUse | addrNotAvailable | alreadyExists | argumentListTooLong | brokenPipe
  | connectionAborted | connectionRefused | connectionReset | crossesDevices | deadlock
  | directoryNotEmpty | executableFileBusy | fileTooLarge | filesystemLoop | hostUnreachable
  | inProgress | interrupted | invalidData | invalidFilename | invalidInput | isADirectory
  | networkDown | networkUnreachable | notADirectory | notConnected | notFound | notSeekable
  | outOfMemory | permissionDenied | quotaExceeded | readOnlyFilesystem | resourceBusy
  | staleNetworkFileHandle | storageFull | timedOut | tooManyLinks | uncategorized
  | unexpectedEof | unsupported | wouldBlock | writeZero | other
deriving DecidableEq, Repr

/-- Wording of a failure of output. -/
def IoFailure.text : IoFailure → String
  | addrInUse => "address in use"
  | addrNotAvailable => "address not available"
  | alreadyExists => "entity already exists"
  | argumentListTooLong => "argument list too long"
  | brokenPipe => "broken pipe"
  | connectionAborted => "connection aborted"
  | connectionRefused => "connection refused"
  | connectionReset => "connection reset"
  | crossesDevices => "cross-device link or rename"
  | deadlock => "deadlock"
  | directoryNotEmpty => "directory not empty"
  | executableFileBusy => "executable file busy"
  | fileTooLarge => "file too large"
  | filesystemLoop => "filesystem loop or indirection limit (e.g. symlink loop)"
  | hostUnreachable => "host unreachable"
  | inProgress => "in progress"
  | interrupted => "operation interrupted"
  | invalidData => "invalid data"
  | invalidFilename => "invalid filename"
  | invalidInput => "invalid input parameter"
  | isADirectory => "is a directory"
  | networkDown => "network down"
  | networkUnreachable => "network unreachable"
  | notADirectory => "not a directory"
  | notConnected => "not connected"
  | notFound => "entity not found"
  | notSeekable => "seek on unseekable file"
  | outOfMemory => "out of memory"
  | permissionDenied => "permission denied"
  | quotaExceeded => "quota exceeded"
  | readOnlyFilesystem => "read-only filesystem or storage medium"
  | resourceBusy => "resource busy"
  | staleNetworkFileHandle => "stale network file handle"
  | storageFull => "no storage space"
  | timedOut => "timed out"
  | tooManyLinks => "too many links"
  | uncategorized => "uncategorized error"
  | unexpectedEof => "unexpected end of file"
  | unsupported => "unsupported"
  | wouldBlock => "operation would block"
  | writeZero => "write zero"
  | other => "other error"

/-- Why a program is stopped. -/
inductive Fault where
  /-- An index addresses no side register. -/
  | invalidRegister (idx : UInt8)
  /-- An access leaves the memory region it starts in, or starts in none. -/
  | outOfBounds (addr : UInt32)
  /-- A write starts in the read-only region. -/
  | readOnlyViolation (addr : UInt32)
  | divideByZero
  | stackUnderflow
  /-- The call stack already has as many items as it may have. -/
  | stackOverflow (max : Nat)
  /-- An instruction with an opcode of no operation was executed. -/
  | invalidOpcode (opcode : UInt8)
  /-- No system call has this number. -/
  | invalidSyscall (number : UInt8)
  /-- There is no instruction at this position. -/
  | codeOutOfBounds (pos : Int)
  /-- As many instructions were executed as may be. -/
  | stepLimit (max : Nat)
  /-- The host did not take the output of a system call. -/
  | hostIo (failure : IoFailure)
deriving DecidableEq, Repr

/-- Wording of a fault. -/
def Fault.message : Fault → String
  | invalidRegister idx =>
    "side register index " ++ toString idx.toNat ++ " does not address any register."
  | outOfBounds addr => "memory access at address " ++ toString addr.toNat ++ " is out of bounds."
  | readOnlyViolation addr =>
    "attempt to write to the read-only data segment at address " ++ toString addr.toNat ++ "."
  | divideByZero => "division by zero."
  | stackUnderflow => "pop from an empty call stack."
  | stackOverflow max => "call stack depth limit of " ++ toString max ++ " items exceeded."
  | invalidOpcode opcode =>
    "opcode " ++ toString opcode.toNat ++ " does not correspond to any instruction."
  | invalidSyscall number => "unknown system call number " ++ toString number.toNat ++ "."
  | codeOutOfBounds pos =>
    "control transferred to position " ++ toString pos ++ " outside of the code segment."
  | stepLimit max => "step limit of " ++ toString max ++ " instructions reached."
  | hostIo failure => "host I/O failure during a system call (" ++ failure.text ++ ")."

end Accumulator
