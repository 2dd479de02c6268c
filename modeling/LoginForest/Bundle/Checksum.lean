/-
  A 64-bit checksum of bytes. Each byte is added by exclusive or and spread by an odd factor,
  so that no step forgets anything of the sum before it.
-/
namespace LoginForest.Checksum

def start : UInt64 := 14695981039346656037

def factor : UInt64 := 1099511628211

/-- Add one byte. -/
def step (sum : UInt64) (b : UInt8) : UInt64 := (sum ^^^ b.toUInt64) * factor

def ofBytes (bytes : List UInt8) : UInt64 := bytes.foldl step start

end LoginForest.Checksum
