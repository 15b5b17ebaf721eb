/-
  PatchPresence.Folding.Library — constants of the Java class library that compilers inline.

  A field has the key `owner#name`, a method without parameters and with a fixed result `owner#name()`.
-/
import PatchPresence.Constant
import PatchPresence.Data.Table

namespace PatchPresence

/-- Known constants by key. -/
structure LibraryConstants where
  entries : Table String Constant
deriving DecidableEq, Repr

namespace LibraryConstants

/-! ## §1. Lookup. -/

/-- No known constants. -/
def empty : LibraryConstants := ⟨.empty⟩

/-- Whether the owner of a key depends on the platform, so that nothing in it is inlined. -/
def isPlatform (key : String) : Bool := key.startsWith "java.io."

/-- Constant of a key, never of a platform class. -/
def get? (library : LibraryConstants) (key : String) : Option Constant :=
  if isPlatform key then none else library.entries.get? key

/-- Key of a field. -/
def fieldKey (owner name : String) : String := owner ++ "#" ++ name

/-- Constant of a field. -/
def field? (library : LibraryConstants) (owner name : String) : Option Constant :=
  library.get? (fieldKey owner name)

/-- Constant of a method without parameters. -/
def invocation? (library : LibraryConstants) (owner name : String) : Option Constant :=
  library.get? (fieldKey owner name ++ "()")

/-- Adds a constant, over an older one of the same key. -/
def insert (library : LibraryConstants) (key : String) (value : Constant) : LibraryConstants :=
  ⟨library.entries.insert key value⟩

/-- Adds constants in turn. -/
def extend (library : LibraryConstants) (pairs : List (String × Constant)) : LibraryConstants :=
  ⟨library.entries.insertAll pairs⟩

/-- Number of known constants. -/
def size (library : LibraryConstants) : Nat := library.entries.size

/-! ## §2. The class library. -/

/-- Fields of type int. -/
def builtinInts : List (String × Int) :=
  [("java.lang.Integer#MAX_VALUE", 2147483647),
    ("java.lang.Integer#MIN_VALUE", -2147483648),
    ("java.lang.Integer#SIZE", 32),
    ("java.lang.Integer#BYTES", 4),
    ("java.lang.Long#SIZE", 64),
    ("java.lang.Long#BYTES", 8),
    ("java.lang.Short#SIZE", 16),
    ("java.lang.Short#BYTES", 2),
    ("java.lang.Byte#SIZE", 8),
    ("java.lang.Byte#BYTES", 1),
    ("java.lang.Character#SIZE", 16),
    ("java.lang.Character#BYTES", 2),
    ("java.lang.Character#MIN_RADIX", 2),
    ("java.lang.Character#MAX_RADIX", 36),
    ("java.lang.Character#MIN_CODE_POINT", 0),
    ("java.lang.Character#MAX_CODE_POINT", 0x10ffff),
    ("java.lang.Character#MIN_SUPPLEMENTARY_CODE_POINT", 0x10000),
    ("java.lang.Float#SIZE", 32),
    ("java.lang.Float#BYTES", 4),
    ("java.lang.Float#MAX_EXPONENT", 127),
    ("java.lang.Float#MIN_EXPONENT", -126),
    ("java.lang.Double#SIZE", 64),
    ("java.lang.Double#BYTES", 8),
    ("java.lang.Double#MAX_EXPONENT", 1023),
    ("java.lang.Double#MIN_EXPONENT", -1022),
    ("java.lang.reflect.Modifier#PUBLIC", 0x0001),
    ("java.lang.reflect.Modifier#PRIVATE", 0x0002),
    ("java.lang.reflect.Modifier#PROTECTED", 0x0004),
    ("java.lang.reflect.Modifier#STATIC", 0x0008),
    ("java.lang.reflect.Modifier#FINAL", 0x0010),
    ("java.util.regex.Pattern#UNIX_LINES", 0x01),
    ("java.util.regex.Pattern#CASE_INSENSITIVE", 0x02),
    ("java.util.regex.Pattern#COMMENTS", 0x04),
    ("java.util.regex.Pattern#MULTILINE", 0x08),
    ("java.util.regex.Pattern#LITERAL", 0x10),
    ("java.util.regex.Pattern#DOTALL", 0x20),
    ("java.util.Calendar#YEAR", 1),
    ("java.util.Calendar#MONTH", 2),
    ("java.util.Calendar#DAY_OF_MONTH", 5),
    ("java.util.Calendar#HOUR_OF_DAY", 11),
    ("java.util.Calendar#MINUTE", 12),
    ("java.util.Calendar#SECOND", 13),
    ("java.util.Calendar#MILLISECOND", 14),
    ("java.net.HttpURLConnection#HTTP_OK", 200),
    ("java.net.HttpURLConnection#HTTP_BAD_REQUEST", 400),
    ("java.net.HttpURLConnection#HTTP_UNAUTHORIZED", 401),
    ("java.net.HttpURLConnection#HTTP_FORBIDDEN", 403),
    ("java.net.HttpURLConnection#HTTP_NOT_FOUND", 404),
    ("java.net.HttpURLConnection#HTTP_INTERNAL_ERROR", 500),
    ("java.lang.Short#MAX_VALUE", 32767),
    ("java.lang.Short#MIN_VALUE", -32768),
    ("java.lang.Byte#MAX_VALUE", 127),
    ("java.lang.Byte#MIN_VALUE", -128)]

/-- Fields of type char. -/
def builtinChars : List (String × UInt16) :=
  [("java.lang.Character#MIN_VALUE", 0),
    ("java.lang.Character#MAX_VALUE", 0xffff),
    ("java.lang.Character#MIN_HIGH_SURROGATE", 0xd800),
    ("java.lang.Character#MAX_HIGH_SURROGATE", 0xdbff),
    ("java.lang.Character#MIN_LOW_SURROGATE", 0xdc00),
    ("java.lang.Character#MAX_LOW_SURROGATE", 0xdfff)]

/-- Fields of type long. -/
def builtinLongs : List (String × Int) :=
  [("java.lang.Long#MAX_VALUE", 9223372036854775807),
    ("java.lang.Long#MIN_VALUE", -9223372036854775808)]

/-- Fields of type float, by bit pattern. -/
def builtinFloats : List (String × UInt32) :=
  [("java.lang.Float#MAX_VALUE", 0x7f7fffff),
    ("java.lang.Float#MIN_VALUE", 0x00000001),
    ("java.lang.Float#MIN_NORMAL", 0x00800000),
    ("java.lang.Float#POSITIVE_INFINITY", 0x7f800000),
    ("java.lang.Float#NEGATIVE_INFINITY", 0xff800000),
    ("java.lang.Float#NaN", 0x7fc00000)]

/-- Fields of type double, by bit pattern. -/
def builtinDoubles : List (String × UInt64) :=
  [("java.lang.Double#MAX_VALUE", 0x7fefffffffffffff),
    ("java.lang.Double#MIN_VALUE", 0x0000000000000001),
    ("java.lang.Double#MIN_NORMAL", 0x0010000000000000),
    ("java.lang.Double#POSITIVE_INFINITY", 0x7ff0000000000000),
    ("java.lang.Double#NEGATIVE_INFINITY", 0xfff0000000000000),
    ("java.lang.Double#NaN", 0x7ff8000000000000),
    ("java.lang.Math#PI", 0x400921fb54442d18),
    ("java.lang.Math#E", 0x4005bf0a8b145769),
    ("java.lang.StrictMath#PI", 0x400921fb54442d18),
    ("java.lang.StrictMath#E", 0x4005bf0a8b145769)]

/-- Constants of the class library. -/
def builtin : LibraryConstants :=
  empty.extend
    (builtinInts.map (fun (key, value) => (key, Constant.int (Int32.ofInt value)))
      ++ builtinLongs.map (fun (key, value) => (key, Constant.long (Int64.ofInt value)))
      ++ builtinChars.map (fun (key, value) => (key, Constant.char value))
      ++ builtinFloats.map (fun (key, bits) => (key, Constant.float (Float32.ofBits bits)))
      ++ builtinDoubles.map (fun (key, bits) => (key, Constant.double (Float.ofBits bits))))

end LibraryConstants

end PatchPresence
