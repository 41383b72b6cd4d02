import Whittle.Token.Basic

/-!
# Reserved words

The words of C and of its common extensions that are no identifiers.

* `typeWords`: builtin types; a run of them forms one type.
* `qualifiers`: words that may stand beside a type and name none.
* `wordKind`: the token kind of a word.
-/

namespace Whittle.Token

/-- The words that name builtin types. -/
def typeWords : List String :=
  ["void", "char", "short", "int", "long", "float", "double", "signed", "unsigned", "_Bool",
    "_Complex", "__complex__", "__signed", "__signed__", "__int128", "_Float128", "__float128",
    "__builtin_va_list"]

/-- The word that marks an expression or declaration as an extension. -/
def extensionWord : String := "__extension__"

/-- Qualifiers, and storage classes that need no treatment of their own. -/
def qualifiers : List String :=
  ["const", "volatile", "restrict", "auto", "register", "inline", "_Noreturn", "__inline",
    "__inline__", "__restrict", "__restrict__", "__const", "__const__", "__volatile",
    "__volatile__", extensionWord, "_Thread_local", "__thread"]

/-- The reserved words with a kind of their own. -/
def keywords : List (String × TokenKind) :=
  [("typedef", .kwTypedef), ("extern", .kwExtern), ("static", .kwStatic), ("struct", .kwStruct),
    ("union", .kwUnion), ("enum", .kwEnum), ("__attribute__", .kwAttribute),
    ("__attribute", .kwAttribute), ("__declspec", .kwAttribute), ("_Alignas", .kwAttribute),
    ("alignas", .kwAttribute), ("asm", .kwAsm), ("__asm__", .kwAsm), ("__asm", .kwAsm),
    ("typeof", .kwTypeof), ("__typeof__", .kwTypeof), ("__typeof", .kwTypeof),
    ("sizeof", .kwSizeof), ("_Alignof", .kwSizeof), ("alignof", .kwSizeof),
    ("__alignof__", .kwSizeof), ("__alignof", .kwSizeof), ("if", .kwIf), ("else", .kwElse),
    ("while", .kwWhile), ("do", .kwDo), ("for", .kwFor), ("switch", .kwSwitch),
    ("case", .kwCase), ("default", .kwDefault), ("return", .kwReturn), ("break", .kwBreak),
    ("continue", .kwContinue), ("goto", .kwGoto)]

/-- All reserved words. -/
def reserved : List (String × TokenKind) :=
  keywords ++ (typeWords ++ qualifiers).map (·, .specifier)

/-- Whether a spelling is one of some words. -/
def isOneOf (words : List String) (text : Text) : Bool :=
  words.any (·.toList == text)

/-- The kind of a word: a reserved one, or an identifier. -/
def wordKind (text : Text) : TokenKind :=
  ((reserved.find? (·.1.toList == text)).map (·.2)).getD .identifier

end Whittle.Token
