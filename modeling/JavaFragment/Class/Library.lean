import JavaFragment.Class.Model
/-!
The classes of the standard library that fragments usually touch, with the members they use.
-/
namespace JavaFragment.Library

/-- Adds methods of the same access, given by name and descriptor. -/
def withMethods (c : ClassModel) (access : AccessFlags) (methods : List (String × String)) :
    ClassModel :=
  { c with methods := c.methods ++ methods.map fun (name, descriptor) => ⟨name, descriptor, access⟩ }

/-- Adds a public static final field, which may hold a constant. -/
def withConstant (c : ClassModel) (name descriptor : String) (value : Option ConstantValue) :
    ClassModel :=
  let access := (AccessFlags.publicFlag.union .staticFlag).union .finalFlag
  { c with fields := c.fields ++ [⟨name, descriptor, access, value⟩] }

def withAccess (c : ClassModel) (access : AccessFlags) : ClassModel :=
  { c with access := c.access.union access }

def extending (c : ClassModel) (superName : String) : ClassModel :=
  { c with superName := some superName }

def implementing (c : ClassModel) (interface : String) : ClassModel :=
  { c with interfaces := c.interfaces ++ [interface] }

def finalClass (name : String) : ClassModel := withAccess (.ofName name) .finalFlag

def instanceAccess : AccessFlags := .publicFlag
def staticAccess : AccessFlags := AccessFlags.publicFlag.union .staticFlag
def abstractAccess : AccessFlags := AccessFlags.publicFlag.union .abstractFlag

/-- A class that boxes the primitive of a descriptor, with the method that gives its value back. -/
def wrapper (name primitive unbox : String) : ClassModel :=
  let parent := if primitive = "Z" || primitive = "C" then objectClass else "java/lang/Number"
  let c := withMethods (extending (finalClass name) parent) instanceAccess [
    (constructorName, "(" ++ primitive ++ ")V"),
    (unbox, "()" ++ primitive),
    ("toString", "()Ljava/lang/String;"),
    ("equals", "(Ljava/lang/Object;)Z"),
    ("hashCode", "()I")]
  let c := withMethods c staticAccess [
    ("valueOf", "(" ++ primitive ++ ")L" ++ name ++ ";"),
    ("toString", "(" ++ primitive ++ ")Ljava/lang/String;")]
  withConstant c "TYPE" "Ljava/lang/Class;" none

def object : ClassModel :=
  { withMethods (.ofName objectClass) instanceAccess [
      (constructorName, "()V"),
      ("toString", "()Ljava/lang/String;"),
      ("equals", "(Ljava/lang/Object;)Z"),
      ("hashCode", "()I"),
      ("getClass", "()Ljava/lang/Class;"),
      ("notify", "()V"),
      ("wait", "()V")] with
    superName := none }

def string : ClassModel :=
  let c := withMethods (implementing (finalClass stringClass) "java/lang/CharSequence") instanceAccess [
    (constructorName, "()V"),
    (constructorName, "(Ljava/lang/String;)V"),
    (constructorName, "([C)V"),
    ("length", "()I"),
    ("charAt", "(I)C"),
    ("isEmpty", "()Z"),
    ("equals", "(Ljava/lang/Object;)Z"),
    ("hashCode", "()I"),
    ("concat", "(Ljava/lang/String;)Ljava/lang/String;"),
    ("substring", "(I)Ljava/lang/String;"),
    ("substring", "(II)Ljava/lang/String;"),
    ("indexOf", "(Ljava/lang/String;)I"),
    ("indexOf", "(I)I"),
    ("startsWith", "(Ljava/lang/String;)Z"),
    ("trim", "()Ljava/lang/String;"),
    ("toUpperCase", "()Ljava/lang/String;"),
    ("toLowerCase", "()Ljava/lang/String;"),
    ("toCharArray", "()[C"),
    ("toString", "()Ljava/lang/String;")]
  withMethods c staticAccess [
    ("valueOf", "(Ljava/lang/Object;)Ljava/lang/String;"),
    ("valueOf", "(Z)Ljava/lang/String;"),
    ("valueOf", "(C)Ljava/lang/String;"),
    ("valueOf", "(I)Ljava/lang/String;"),
    ("valueOf", "(J)Ljava/lang/String;"),
    ("valueOf", "(F)Ljava/lang/String;"),
    ("valueOf", "(D)Ljava/lang/String;")]

def stringBuilder : ClassModel :=
  withMethods (implementing (finalClass "java/lang/StringBuilder") "java/lang/CharSequence")
    instanceAccess [
      (constructorName, "()V"),
      (constructorName, "(Ljava/lang/String;)V"),
      ("append", "(Ljava/lang/String;)Ljava/lang/StringBuilder;"),
      ("append", "(Ljava/lang/Object;)Ljava/lang/StringBuilder;"),
      ("append", "(Z)Ljava/lang/StringBuilder;"),
      ("append", "(C)Ljava/lang/StringBuilder;"),
      ("append", "(I)Ljava/lang/StringBuilder;"),
      ("append", "(J)Ljava/lang/StringBuilder;"),
      ("append", "(F)Ljava/lang/StringBuilder;"),
      ("append", "(D)Ljava/lang/StringBuilder;"),
      ("length", "()I"),
      ("charAt", "(I)C"),
      ("toString", "()Ljava/lang/String;")]

def charSequence : ClassModel :=
  withMethods (.interfaceOfName "java/lang/CharSequence") abstractAccess
    [("length", "()I"), ("charAt", "(I)C"), ("toString", "()Ljava/lang/String;")]

def runnable : ClassModel :=
  withMethods (.interfaceOfName "java/lang/Runnable") abstractAccess [("run", "()V")]

def number : ClassModel :=
  withMethods (withAccess (.ofName "java/lang/Number") .abstractFlag) instanceAccess [
    (constructorName, "()V"),
    ("intValue", "()I"),
    ("longValue", "()J"),
    ("floatValue", "()F"),
    ("doubleValue", "()D")]

def integer : ClassModel :=
  let c := withMethods (wrapper "java/lang/Integer" "I" "intValue") staticAccess [
    ("parseInt", "(Ljava/lang/String;)I"),
    ("max", "(II)I"),
    ("min", "(II)I")]
  withConstant (withConstant c "MAX_VALUE" "I" (some (.int Int32.maxValue)))
    "MIN_VALUE" "I" (some (.int Int32.minValue))

def long : ClassModel :=
  let c := withMethods (wrapper "java/lang/Long" "J" "longValue") staticAccess
    [("parseLong", "(Ljava/lang/String;)J")]
  withConstant (withConstant c "MAX_VALUE" "J" (some (.long Int64.maxValue)))
    "MIN_VALUE" "J" (some (.long Int64.minValue))

def boolean : ClassModel :=
  withConstant
    (withConstant (wrapper "java/lang/Boolean" "Z" "booleanValue") "TRUE" "Ljava/lang/Boolean;" none)
    "FALSE" "Ljava/lang/Boolean;" none

def double : ClassModel :=
  withConstant (wrapper "java/lang/Double" "D" "doubleValue") "MAX_VALUE" "D"
    (some (.double ⟨0x7fefffffffffffff⟩))

def math : ClassModel :=
  let c := withMethods (finalClass "java/lang/Math") staticAccess [
    ("abs", "(I)I"),
    ("abs", "(J)J"),
    ("abs", "(F)F"),
    ("abs", "(D)D"),
    ("max", "(II)I"),
    ("max", "(JJ)J"),
    ("max", "(DD)D"),
    ("min", "(II)I"),
    ("min", "(JJ)J"),
    ("min", "(DD)D"),
    ("sqrt", "(D)D"),
    ("pow", "(DD)D"),
    ("floor", "(D)D"),
    ("random", "()D")]
  withConstant (withConstant c "PI" "D" (some (.double ⟨0x400921fb54442d18⟩)))
    "E" "D" (some (.double ⟨0x4005bf0a8b145769⟩))

def system : ClassModel :=
  let c := withMethods (finalClass "java/lang/System") staticAccess [
    ("currentTimeMillis", "()J"),
    ("nanoTime", "()J"),
    ("arraycopy", "(Ljava/lang/Object;ILjava/lang/Object;II)V"),
    ("getProperty", "(Ljava/lang/String;)Ljava/lang/String;"),
    ("identityHashCode", "(Ljava/lang/Object;)I")]
  withConstant (withConstant c "out" "Ljava/io/PrintStream;" none) "err" "Ljava/io/PrintStream;" none

def printStream : ClassModel :=
  let args := ["Z", "C", "I", "J", "F", "D", "Ljava/lang/String;", "Ljava/lang/Object;", "[C"]
  let overloads (name : String) := args.map fun arg => (name, "(" ++ arg ++ ")V")
  withMethods (.ofName "java/io/PrintStream") instanceAccess
    (overloads "print" ++ overloads "println" ++ [("println", "()V")])

def classClass : ClassModel :=
  let c := withMethods (finalClass "java/lang/Class") instanceAccess [
    ("getName", "()Ljava/lang/String;"),
    ("getSimpleName", "()Ljava/lang/String;"),
    ("isInstance", "(Ljava/lang/Object;)Z")]
  withMethods c staticAccess [("forName", "(Ljava/lang/String;)Ljava/lang/Class;")]

def throwable : ClassModel :=
  withMethods (.ofName "java/lang/Throwable") instanceAccess [
    (constructorName, "()V"),
    (constructorName, "(Ljava/lang/String;)V"),
    ("getMessage", "()Ljava/lang/String;"),
    ("printStackTrace", "()V")]

/-- A class of exceptions with or without a message. -/
def exception (name parent : String) : ClassModel :=
  withMethods (extending (.ofName name) parent) instanceAccess
    [(constructorName, "()V"), (constructorName, "(Ljava/lang/String;)V")]

def list : ClassModel :=
  withMethods (.interfaceOfName "java/util/List") abstractAccess [
    ("size", "()I"),
    ("get", "(I)Ljava/lang/Object;"),
    ("add", "(Ljava/lang/Object;)Z"),
    ("isEmpty", "()Z")]

def arrayList : ClassModel :=
  withMethods (implementing (.ofName "java/util/ArrayList") "java/util/List") instanceAccess [
    (constructorName, "()V"),
    (constructorName, "(I)V"),
    ("size", "()I"),
    ("get", "(I)Ljava/lang/Object;"),
    ("add", "(Ljava/lang/Object;)Z"),
    ("isEmpty", "()Z")]

/-- All classes of the library. -/
def classes : List ClassModel := [
  object,
  string,
  stringBuilder,
  charSequence,
  runnable,
  number,
  integer,
  long,
  wrapper "java/lang/Short" "S" "shortValue",
  wrapper "java/lang/Byte" "B" "byteValue",
  wrapper "java/lang/Character" "C" "charValue",
  boolean,
  wrapper "java/lang/Float" "F" "floatValue",
  double,
  math,
  system,
  printStream,
  classClass,
  throwable,
  exception "java/lang/Exception" "java/lang/Throwable",
  exception "java/lang/Error" "java/lang/Throwable",
  exception "java/lang/RuntimeException" "java/lang/Exception",
  exception "java/lang/ArithmeticException" "java/lang/RuntimeException",
  exception "java/lang/IllegalArgumentException" "java/lang/RuntimeException",
  exception "java/lang/IllegalStateException" "java/lang/RuntimeException",
  exception "java/lang/NullPointerException" "java/lang/RuntimeException",
  exception "java/lang/ClassCastException" "java/lang/RuntimeException",
  exception "java/io/IOException" "java/lang/Exception",
  list,
  arrayList]

/-- The table of the library's classes. -/
def table : ClassTable := ⟨classes⟩

end JavaFragment.Library
