/-!
Access flags of classes, fields and methods, and the modifiers that set them.
-/
namespace JavaFragment

/-- A set of access flags, as stored in a class file. -/
structure AccessFlags where
  bits : UInt16
deriving DecidableEq, Repr, Inhabited

namespace AccessFlags

def none : AccessFlags := ⟨0⟩
def union (a b : AccessFlags) : AccessFlags := ⟨a.bits ||| b.bits⟩

/-- The flags of `a` that are also in `b`. -/
def inter (a b : AccessFlags) : AccessFlags := ⟨a.bits &&& b.bits⟩

/-- Whether every flag of `b` is in `a`. -/
def contains (a b : AccessFlags) : Bool := a.bits &&& b.bits == b.bits

def publicFlag : AccessFlags := ⟨0x0001⟩
def privateFlag : AccessFlags := ⟨0x0002⟩
def protectedFlag : AccessFlags := ⟨0x0004⟩
def staticFlag : AccessFlags := ⟨0x0008⟩
def finalFlag : AccessFlags := ⟨0x0010⟩
def superFlag : AccessFlags := ⟨0x0020⟩
def varargsFlag : AccessFlags := ⟨0x0080⟩
def nativeFlag : AccessFlags := ⟨0x0100⟩
def interfaceFlag : AccessFlags := ⟨0x0200⟩
def abstractFlag : AccessFlags := ⟨0x0400⟩
def syntheticFlag : AccessFlags := ⟨0x1000⟩

def isPrivate (a : AccessFlags) : Bool := a.contains privateFlag
def isStatic (a : AccessFlags) : Bool := a.contains staticFlag
def isFinal (a : AccessFlags) : Bool := a.contains finalFlag
def isInterface (a : AccessFlags) : Bool := a.contains interfaceFlag
def isAbstract (a : AccessFlags) : Bool := a.contains abstractFlag

end AccessFlags

/-- A modifier keyword of a declaration. -/
inductive Modifier where
  | publicAccess
  | privateAccess
  | protectedAccess
  | static
  | final
  | synchronized
  | volatile
  | transient
  | native
  | abstract
  | strictfp
deriving DecidableEq, Repr, Inhabited

namespace Modifier

def ofKeyword? : String → Option Modifier
  | "public" => some .publicAccess
  | "private" => some .privateAccess
  | "protected" => some .protectedAccess
  | "static" => some .static
  | "final" => some .final
  | "synchronized" => some .synchronized
  | "volatile" => some .volatile
  | "transient" => some .transient
  | "native" => some .native
  | "abstract" => some .abstract
  | "strictfp" => some .strictfp
  | _ => none

/-- The flag a modifier sets. Two of them share their bit with a method flag of another meaning. -/
def flag : Modifier → AccessFlags
  | .publicAccess => ⟨0x0001⟩
  | .privateAccess => ⟨0x0002⟩
  | .protectedAccess => ⟨0x0004⟩
  | .static => ⟨0x0008⟩
  | .final => ⟨0x0010⟩
  | .synchronized => ⟨0x0020⟩
  | .volatile => ⟨0x0040⟩
  | .transient => ⟨0x0080⟩
  | .native => ⟨0x0100⟩
  | .abstract => ⟨0x0400⟩
  | .strictfp => ⟨0x0800⟩

end Modifier

/-- The modifiers of a declaration that apply to a method: all but `volatile` and `transient`. -/
def AccessFlags.forMethod (a : AccessFlags) : AccessFlags := a.inter ⟨0x0d3f⟩

/-- The modifiers of a declaration that apply to a field: access, `static`, `final`, `volatile`
and `transient`. -/
def AccessFlags.forField (a : AccessFlags) : AccessFlags := a.inter ⟨0x00df⟩

end JavaFragment
