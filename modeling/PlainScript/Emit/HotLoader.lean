import PlainScript.Emit.Cursor

/-!
# Hot loading

With hot loading the module enters before all other code, and at its end it registers its top-level
bindings under the path of the file and leaves.
-/

namespace PlainScript.Emit.HotLoader

def enterCode : String :=
  "(function () \x7b var enterModule = require('react-hot-loader').enterModule; " ++
  "enterModule && enterModule(module); \x7d)();"

/-- The names bound at the top level, imports apart, in order and without repetition. -/
def boundNames (t : Tape) : List String :=
  ((t.tokens.toList.filter fun token =>
    !token.isType && token.hasRole IdentifierRole.isTopLevelDeclaration &&
      token.role? != some .importDeclaration).map (·.text t.source)).eraseDups

def registration (path variableName name : String) : String :=
  "  reactHotLoader.register(" ++ variableName ++ ", \"" ++ name ++ "\", " ++
    JsonString.quote path ++ ");\n"

/-- The code after the module. -/
def leaveCode (t : Tape) (path : String) (defaultVariable? : Option String) : String :=
  "\n;(function () \x7b\n  var reactHotLoader = require('react-hot-loader').default;\n" ++
  "  var leaveModule = require('react-hot-loader').leaveModule;\n" ++
  "  if (!reactHotLoader) \x7b\n    return;\n  \x7d\n" ++
  String.join ((boundNames t).map fun name => registration path name name) ++
  String.join (defaultVariable?.toList.map fun name => registration path name "default") ++
  "  leaveModule(module);\n\x7d)();"

end PlainScript.Emit.HotLoader
