/-!
# Kinds of tokens and of tree nodes

Every token of a C program has a `TokenKind`, every node of its tree a `NodeKind`, and `Kind` is
either of them.

* `TokenKind.isTrivia`: the tokens that carry no grammar.
* `Kind.all`: all kinds in their fixed order, tokens before nodes.
* `Kind.number`, `Kind.ofNumber`: the position in that order and the way back.
* `Kind.label`: the name a kind is printed with.
-/

namespace Whittle

/-- What a token is. -/
inductive TokenKind where
  | whitespace
  | comment
  /-- A `#` line. -/
  | directive
  /-- A character that starts no token of C. -/
  | stray
  | identifier
  | number
  | string
  | character
  | kwTypedef
  | kwExtern
  | kwStatic
  /-- A builtin type word or a qualifier. -/
  | specifier
  | kwStruct
  | kwUnion
  | kwEnum
  | kwAttribute
  | kwAsm
  | kwTypeof
  | kwSizeof
  | kwIf
  | kwElse
  | kwWhile
  | kwDo
  | kwFor
  | kwSwitch
  | kwCase
  | kwDefault
  | kwReturn
  | kwBreak
  | kwContinue
  | kwGoto
  | openParen
  | closeParen
  | openBrace
  | closeBrace
  | openBracket
  | closeBracket
  | semicolon
  | comma
  | dot
  | arrow
  | ellipsis
  | question
  | colon
  | assign
  /-- An assignment that also computes, such as `+=`. -/
  | assignOp
  | star
  | amp
  | plus
  | minus
  | increment
  | decrement
  | bang
  | tilde
  /-- Every other operator. -/
  | operator
deriving DecidableEq

/-- Whitespace, comments and `#` lines carry no grammar. -/
def TokenKind.isTrivia : TokenKind → Bool
  | .whitespace | .comment | .directive => true
  | _ => false

/-- What a node of the tree is. -/
inductive NodeKind where
  | root
  /-- A token that fits nowhere. -/
  | error
  | functionDef
  | declGroup
  | specifiers
  | tagSpecifier
  | structBody
  | fieldGroup
  | enumBody
  | enumerator
  | attr
  | typeofSpecifier
  | initDeclarator
  | declarator
  | nestedDeclarator
  | name
  | arraySuffix
  | paramList
  | param
  | initList
  | designator
  | typeName
  | compoundStmt
  | exprStmt
  | ifStmt
  | whileStmt
  | doStmt
  | forStmt
  | switchStmt
  | caseStmt
  | labeledStmt
  | returnStmt
  | jumpStmt
  | asmStmt
  | emptyStmt
  | nameRef
  | literal
  | parenExpr
  | stmtExpr
  | binaryExpr
  | conditionalExpr
  | prefixExpr
  | postfixExpr
  | castExpr
  | compoundLiteral
  | sizeofExpr
  | callExpr
  | argList
  | indexExpr
  | fieldExpr
deriving DecidableEq

/-- The kind of a token or of a node. -/
inductive Kind where
  | token (kind : TokenKind)
  | node (kind : NodeKind)
deriving DecidableEq

namespace TokenKind

/-- All token kinds in their fixed order. -/
def all : List TokenKind :=
  [.whitespace, .comment, .directive, .stray, .identifier, .number, .string, .character,
    .kwTypedef, .kwExtern, .kwStatic, .specifier, .kwStruct, .kwUnion, .kwEnum, .kwAttribute,
    .kwAsm, .kwTypeof, .kwSizeof, .kwIf, .kwElse, .kwWhile, .kwDo, .kwFor, .kwSwitch, .kwCase,
    .kwDefault, .kwReturn, .kwBreak, .kwContinue, .kwGoto, .openParen, .closeParen, .openBrace,
    .closeBrace, .openBracket, .closeBracket, .semicolon, .comma, .dot, .arrow, .ellipsis,
    .question, .colon, .assign, .assignOp, .star, .amp, .plus, .minus, .increment, .decrement,
    .bang, .tilde, .operator]

theorem mem_all (k : TokenKind) : k ∈ all := by cases k <;> decide

/-- The printed name of a token kind. -/
def label : TokenKind → String
  | .whitespace => "TOKEN_WHITESPACE"
  | .comment => "TOKEN_COMMENT"
  | .directive => "TOKEN_PREPROCESSOR"
  | .stray => "TOKEN_ERROR"
  | .identifier => "TOKEN_IDENT"
  | .number => "TOKEN_NUMBER"
  | .string => "TOKEN_STRING"
  | .character => "TOKEN_CHAR"
  | .kwTypedef => "TOKEN_TYPEDEF"
  | .kwExtern => "TOKEN_EXTERN"
  | .kwStatic => "TOKEN_STATIC"
  | .specifier => "TOKEN_SPECIFIER"
  | .kwStruct => "TOKEN_STRUCT"
  | .kwUnion => "TOKEN_UNION"
  | .kwEnum => "TOKEN_ENUM"
  | .kwAttribute => "TOKEN_ATTRIBUTE"
  | .kwAsm => "TOKEN_ASM"
  | .kwTypeof => "TOKEN_TYPEOF"
  | .kwSizeof => "TOKEN_SIZEOF"
  | .kwIf => "TOKEN_IF"
  | .kwElse => "TOKEN_ELSE"
  | .kwWhile => "TOKEN_WHILE"
  | .kwDo => "TOKEN_DO"
  | .kwFor => "TOKEN_FOR"
  | .kwSwitch => "TOKEN_SWITCH"
  | .kwCase => "TOKEN_CASE"
  | .kwDefault => "TOKEN_DEFAULT"
  | .kwReturn => "TOKEN_RETURN"
  | .kwBreak => "TOKEN_BREAK"
  | .kwContinue => "TOKEN_CONTINUE"
  | .kwGoto => "TOKEN_GOTO"
  | .openParen => "TOKEN_L_PAREN"
  | .closeParen => "TOKEN_R_PAREN"
  | .openBrace => "TOKEN_L_BRACE"
  | .closeBrace => "TOKEN_R_BRACE"
  | .openBracket => "TOKEN_L_BRACK"
  | .closeBracket => "TOKEN_R_BRACK"
  | .semicolon => "TOKEN_SEMICOLON"
  | .comma => "TOKEN_COMMA"
  | .dot => "TOKEN_DOT"
  | .arrow => "TOKEN_ARROW"
  | .ellipsis => "TOKEN_ELLIPSIS"
  | .question => "TOKEN_QUESTION"
  | .colon => "TOKEN_COLON"
  | .assign => "TOKEN_ASSIGN"
  | .assignOp => "TOKEN_ASSIGN_OP"
  | .star => "TOKEN_STAR"
  | .amp => "TOKEN_AMP"
  | .plus => "TOKEN_PLUS"
  | .minus => "TOKEN_MINUS"
  | .increment => "TOKEN_INCREMENT"
  | .decrement => "TOKEN_DECREMENT"
  | .bang => "TOKEN_BANG"
  | .tilde => "TOKEN_TILDE"
  | .operator => "TOKEN_OPERATOR"

end TokenKind

namespace NodeKind

/-- All node kinds in their fixed order. -/
def all : List NodeKind :=
  [.root, .error, .functionDef, .declGroup, .specifiers, .tagSpecifier, .structBody, .fieldGroup,
    .enumBody, .enumerator, .attr, .typeofSpecifier, .initDeclarator, .declarator,
    .nestedDeclarator, .name, .arraySuffix, .paramList, .param, .initList, .designator,
    .typeName, .compoundStmt, .exprStmt, .ifStmt, .whileStmt, .doStmt, .forStmt, .switchStmt,
    .caseStmt, .labeledStmt, .returnStmt, .jumpStmt, .asmStmt, .emptyStmt, .nameRef, .literal,
    .parenExpr, .stmtExpr, .binaryExpr, .conditionalExpr, .prefixExpr, .postfixExpr, .castExpr,
    .compoundLiteral, .sizeofExpr, .callExpr, .argList, .indexExpr, .fieldExpr]

theorem mem_all (k : NodeKind) : k ∈ all := by cases k <;> decide

/-- The printed name of a node kind. -/
def label : NodeKind → String
  | .root => "NODE_ROOT"
  | .error => "NODE_ERROR"
  | .functionDef => "NODE_FUNCTION_DEF"
  | .declGroup => "NODE_DECL_GROUP"
  | .specifiers => "NODE_SPECIFIERS"
  | .tagSpecifier => "NODE_TAG_SPECIFIER"
  | .structBody => "NODE_STRUCT_BODY"
  | .fieldGroup => "NODE_FIELD_GROUP"
  | .enumBody => "NODE_ENUM_BODY"
  | .enumerator => "NODE_ENUMERATOR"
  | .attr => "NODE_ATTRIBUTE"
  | .typeofSpecifier => "NODE_TYPEOF"
  | .initDeclarator => "NODE_INIT_DECLARATOR"
  | .declarator => "NODE_DECLARATOR"
  | .nestedDeclarator => "NODE_NESTED_DECLARATOR"
  | .name => "NODE_NAME"
  | .arraySuffix => "NODE_ARRAY_SUFFIX"
  | .paramList => "NODE_PARAM_LIST"
  | .param => "NODE_PARAM"
  | .initList => "NODE_INIT_LIST"
  | .designator => "NODE_DESIGNATOR"
  | .typeName => "NODE_TYPE_NAME"
  | .compoundStmt => "NODE_COMPOUND_STMT"
  | .exprStmt => "NODE_EXPR_STMT"
  | .ifStmt => "NODE_IF_STMT"
  | .whileStmt => "NODE_WHILE_STMT"
  | .doStmt => "NODE_DO_STMT"
  | .forStmt => "NODE_FOR_STMT"
  | .switchStmt => "NODE_SWITCH_STMT"
  | .caseStmt => "NODE_CASE_STMT"
  | .labeledStmt => "NODE_LABELED_STMT"
  | .returnStmt => "NODE_RETURN_STMT"
  | .jumpStmt => "NODE_JUMP_STMT"
  | .asmStmt => "NODE_ASM_STMT"
  | .emptyStmt => "NODE_EMPTY_STMT"
  | .nameRef => "NODE_NAME_REF"
  | .literal => "NODE_LITERAL"
  | .parenExpr => "NODE_PAREN_EXPR"
  | .stmtExpr => "NODE_STMT_EXPR"
  | .binaryExpr => "NODE_BIN_EXPR"
  | .conditionalExpr => "NODE_COND_EXPR"
  | .prefixExpr => "NODE_PREFIX_EXPR"
  | .postfixExpr => "NODE_POSTFIX_EXPR"
  | .castExpr => "NODE_CAST_EXPR"
  | .compoundLiteral => "NODE_COMPOUND_LITERAL"
  | .sizeofExpr => "NODE_SIZEOF_EXPR"
  | .callExpr => "NODE_CALL_EXPR"
  | .argList => "NODE_ARG_LIST"
  | .indexExpr => "NODE_INDEX_EXPR"
  | .fieldExpr => "NODE_FIELD_EXPR"

end NodeKind

namespace Kind

/-- All kinds: those of tokens, then those of nodes. -/
def all : List Kind := TokenKind.all.map .token ++ NodeKind.all.map .node

/-- The position of a kind among all kinds. -/
def number (k : Kind) : Nat := all.idxOf k

/-- The kind at a position. Positions past the end stand for a stray character. -/
def ofNumber (n : Nat) : Kind := all.getD n (.token .stray)

theorem mem_all (k : Kind) : k ∈ all := by
  rcases k with k | k
  · exact List.mem_append_left _ (List.mem_map_of_mem (TokenKind.mem_all k))
  · exact List.mem_append_right _ (List.mem_map_of_mem (NodeKind.mem_all k))

@[simp] theorem ofNumber_number (k : Kind) : ofNumber k.number = k := by
  have hlt : all.idxOf k < all.length := List.idxOf_lt_length_of_mem k.mem_all
  simp only [ofNumber, number, List.getD_eq_getElem?_getD, List.getElem?_eq_getElem hlt,
    Option.getD_some, List.getElem_idxOf hlt]

/-- Nodes are never trivia. -/
def isTrivia : Kind → Bool
  | .token k => k.isTrivia
  | .node _ => false

/-- The printed name of a kind. -/
def label : Kind → String
  | .token k => k.label
  | .node k => k.label

end Kind

end Whittle
