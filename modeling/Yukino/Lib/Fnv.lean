set_option autoImplicit false

/-!
# The hash function FNV-1a

`fnv.New32a` of `hash/fnv`, on a list of bytes.
-/

namespace Fnv

/-- The 32-bit FNV-1a hash. -/
def sum32 (bytes : List UInt8) : UInt32 :=
  bytes.foldl (fun hash b => (hash ^^^ b.toUInt32) * 16777619) 2166136261

end Fnv
