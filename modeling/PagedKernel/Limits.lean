/-!
# Limits of a process

The descriptors of the console and the bounds on what a process may hold open or name.
-/

namespace PagedKernel

def stdin : Int := 0

def stdout : Int := 1

def stderr : Int := 2

def firstFileDescriptor : Nat := 3

/-- The descriptors of a process, those of the console included. -/
def descriptorLimit : Nat := 64

/-- The longest path in bytes, its terminator not counted. -/
def pathLimit : Nat := 256

end PagedKernel
