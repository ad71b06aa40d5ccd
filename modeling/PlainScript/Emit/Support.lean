import PlainScript.Emit.Names

/-!
# Support functions

Generated code may call functions that are written before it. Their names are taken before any other
name is generated, and only the functions that are called are written.
-/

namespace PlainScript

inductive SupportFunction where
  | require
  | interopRequireWildcard
  | interopRequireDefault
  | createNamedExportFrom
  | createStarExport
  | nullishCoalesce
  | asyncNullishCoalesce
  | optionalChain
  | asyncOptionalChain
  | optionalChainDelete
  | asyncOptionalChainDelete
deriving DecidableEq, Repr

namespace SupportFunction

def all : List SupportFunction := [.require, .interopRequireWildcard, .interopRequireDefault,
  .createNamedExportFrom, .createStarExport, .nullishCoalesce, .asyncNullishCoalesce,
  .optionalChain, .asyncOptionalChain, .optionalChainDelete, .asyncOptionalChainDelete]

def baseName : SupportFunction → String
  | .require => "_require"
  | .interopRequireWildcard => "_interopRequireWildcard"
  | .interopRequireDefault => "_interopRequireDefault"
  | .createNamedExportFrom => "_createNamedExportFrom"
  | .createStarExport => "_createStarExport"
  | .nullishCoalesce => "_nullishCoalesce"
  | .asyncNullishCoalesce => "_asyncNullishCoalesce"
  | .optionalChain => "_optionalChain"
  | .asyncOptionalChain => "_asyncOptionalChain"
  | .optionalChainDelete => "_optionalChainDelete"
  | .asyncOptionalChainDelete => "_asyncOptionalChainDelete"

end SupportFunction

structure SupportNames where
  names : List (SupportFunction × String) := []
  /-- The name under which the module loader's own factory is imported. -/
  createRequire : String := "_createRequire"
deriving Repr

namespace SupportNames

def claim (names : Names) : SupportNames × Names :=
  let (claimed, names) := names.claimAll (SupportFunction.all.map (·.baseName))
  let (createRequire, names) := names.claim "_createRequire"
  ({ names := SupportFunction.all.zip claimed, createRequire }, names)

def name (s : SupportNames) (f : SupportFunction) : String := (s.names.lookup f).getD f.baseName

/-- What an operation chain does after its header. The two kinds differ in how they wait. -/
def chainBody (wait : String) : String :=
  "(ops) \x7b let lastAccessLHS = undefined; let value = ops[0]; let i = 1; " ++
  "while (i < ops.length) \x7b const op = ops[i]; const fn = ops[i + 1]; i += 2; " ++
  "if ((op === 'optionalAccess' || op === 'optionalCall') && value == null) " ++
  "\x7b return undefined; \x7d " ++
  "if (op === 'access' || op === 'optionalAccess') " ++
  "\x7b lastAccessLHS = value; value = " ++ wait ++ "fn(value); \x7d " ++
  "else if (op === 'call' || op === 'optionalCall') " ++
  "\x7b value = " ++ wait ++ "fn((...args) => value.call(lastAccessLHS, ...args)); " ++
  "lastAccessLHS = undefined; \x7d \x7d return value; \x7d"

def code (s : SupportNames) (f : SupportFunction) : String :=
  let name := s.name f
  match f with
  | .require =>
    "import \x7bcreateRequire as " ++ s.createRequire ++ "\x7d from \"module\"; const " ++ name ++
    " = " ++ s.createRequire ++ "(import.meta.url);"
  | .interopRequireWildcard =>
    "function " ++ name ++ "(obj) \x7b if (obj && obj.__esModule) \x7b return obj; \x7d else " ++
    "\x7b var newObj = \x7b\x7d; if (obj != null) \x7b for (var key in obj) " ++
    "\x7b if (Object.prototype.hasOwnProperty.call(obj, key)) " ++
    "\x7b newObj[key] = obj[key]; \x7d \x7d \x7d newObj.default = obj; return newObj; \x7d \x7d"
  | .interopRequireDefault =>
    "function " ++ name ++ "(obj) \x7b return obj && obj.__esModule ? obj : " ++
    "\x7b default: obj \x7d; \x7d"
  | .createNamedExportFrom =>
    "function " ++ name ++ "(obj, localName, importedName) " ++
    "\x7b Object.defineProperty(exports, localName, " ++
    "\x7benumerable: true, configurable: true, get: () => obj[importedName]\x7d); \x7d"
  | .createStarExport =>
    "function " ++ name ++ "(obj) \x7b Object.keys(obj) " ++
    ".filter((key) => key !== \"default\" && key !== \"__esModule\") " ++
    ".forEach((key) => \x7b if (exports.hasOwnProperty(key)) \x7b return; \x7d " ++
    "Object.defineProperty(exports, key, " ++
    "\x7benumerable: true, configurable: true, get: () => obj[key]\x7d); \x7d); \x7d"
  | .nullishCoalesce =>
    "function " ++ name ++ "(lhs, rhsFn) \x7b if (lhs != null) \x7b return lhs; \x7d else " ++
    "\x7b return rhsFn(); \x7d \x7d"
  | .asyncNullishCoalesce =>
    "async function " ++ name ++ "(lhs, rhsFn) \x7b if (lhs != null) \x7b return lhs; \x7d else " ++
    "\x7b return await rhsFn(); \x7d \x7d"
  | .optionalChain => "function " ++ name ++ chainBody ""
  | .asyncOptionalChain => "async function " ++ name ++ chainBody "await "
  | .optionalChainDelete =>
    "function " ++ name ++ "(ops) \x7b const result = " ++ s.name .optionalChain ++
    "(ops); return result == null ? true : result; \x7d"
  | .asyncOptionalChainDelete =>
    "async function " ++ name ++ "(ops) \x7b const result = await " ++ s.name .asyncOptionalChain ++
    "(ops); return result == null ? true : result; \x7d"

/-- Whether a function has to be written when the given ones are called: it is one of them, or one
of them calls it. -/
def isNeeded (called : List SupportFunction) (f : SupportFunction) : Bool :=
  called.contains f ||
    match f with
    | .optionalChain => called.contains .optionalChainDelete
    | .asyncOptionalChain => called.contains .asyncOptionalChainDelete
    | _ => false

/-- The code of the functions that are needed, each with a blank before it. -/
def codeFor (s : SupportNames) (called : List SupportFunction) : String :=
  String.join ((SupportFunction.all.filter (isNeeded called)).map (" " ++ s.code ·))

end SupportNames

end PlainScript
