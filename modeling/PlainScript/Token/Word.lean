import PlainScript.Token.Kind

/-!
# Words

Classifies the spelling of a word. A reserved word has a token kind of its own; every other word is
a name, and some names are soft keywords, which the grammar treats specially in some places.
-/

namespace PlainScript

inductive SoftKeyword where
  | ordinary
  | abstractName | accessorName | asName | assertName | assertsName | asyncName | awaitName
  | checksName | constructorName | declareName | exportsName | fromName | getName | globalName
  | implementsName | inferName | interfaceName | isName | keyofName | mixinsName | moduleName
  | namespaceName | ofName | opaqueName | outName | overrideName | privateName | protectedName
  | protoName | publicName | readonlyName | requireName | satisfiesName | setName | staticName
  | symbolName | typeName | uniqueName | usingName
deriving DecidableEq, Repr, Inhabited

inductive Word where
  | reserved (kind : TokenKind)
  | name (keyword : SoftKeyword)
deriving DecidableEq, Repr

def reservedWords : List (String × TokenKind) := [
  ("break", .breakWord), ("case", .caseWord), ("catch", .catchWord), ("class", .classWord),
  ("const", .constWord), ("continue", .continueWord), ("debugger", .debuggerWord),
  ("default", .defaultWord), ("delete", .deleteWord), ("do", .doWord), ("else", .elseWord),
  ("enum", .enumWord), ("export", .exportWord), ("extends", .extendsWord), ("false", .falseWord),
  ("finally", .finallyWord), ("for", .forWord), ("function", .functionWord), ("if", .ifWord),
  ("import", .importWord), ("in", .inWord), ("instanceof", .instanceofWord), ("let", .letWord),
  ("new", .newWord), ("null", .nullWord), ("return", .returnWord), ("super", .superWord),
  ("switch", .switchWord), ("this", .thisWord), ("throw", .throwWord), ("true", .trueWord),
  ("try", .tryWord), ("typeof", .typeofWord), ("var", .varWord), ("void", .voidWord),
  ("while", .whileWord), ("with", .withWord), ("yield", .yieldWord)]

def softKeywords : List (String × SoftKeyword) := [
  ("abstract", .abstractName), ("accessor", .accessorName), ("as", .asName),
  ("assert", .assertName), ("asserts", .assertsName), ("async", .asyncName),
  ("await", .awaitName), ("checks", .checksName), ("constructor", .constructorName),
  ("declare", .declareName), ("exports", .exportsName), ("from", .fromName), ("get", .getName),
  ("global", .globalName), ("implements", .implementsName), ("infer", .inferName),
  ("interface", .interfaceName), ("is", .isName), ("keyof", .keyofName), ("mixins", .mixinsName),
  ("module", .moduleName), ("namespace", .namespaceName), ("of", .ofName),
  ("opaque", .opaqueName), ("out", .outName), ("override", .overrideName),
  ("private", .privateName), ("protected", .protectedName), ("proto", .protoName),
  ("public", .publicName), ("readonly", .readonlyName), ("require", .requireName),
  ("satisfies", .satisfiesName), ("set", .setName), ("static", .staticName),
  ("symbol", .symbolName), ("type", .typeName), ("unique", .uniqueName), ("using", .usingName)]

def SoftKeyword.ofText (text : String) : SoftKeyword := (softKeywords.lookup text).getD .ordinary

def Word.ofText (text : String) : Word :=
  match reservedWords.lookup text with
  | some kind => .reserved kind
  | none => .name (SoftKeyword.ofText text)

end PlainScript
