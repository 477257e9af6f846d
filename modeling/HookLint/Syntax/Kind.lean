/-
What sort of syntax a node is.

The grammar's node names are grouped by how names are bound and read below them:
two names share a kind exactly when nothing in the analysis tells them apart.
A node keeps its grammar name beside its kind, because reports show the name.
-/

namespace HookLint.Syntax

/-- The sorts of node the analysis tells apart. -/
inductive Kind where
  /-- a name in expression or binding position -/
  | identifier
  /-- `{ a }` in an object literal -/
  | shorthandProperty
  /-- `{ a }` in an object pattern -/
  | shorthandPattern
  | member
  | subscript
  /-- `A.B` as an element name -/
  | nestedIdentifier
  | call
  | arguments
  /-- `new C()` -/
  | construct
  | functionDeclaration
  | functionExpression
  | arrowFunction
  | method
  | classDeclaration
  | classExpression
  | lexicalDeclaration
  | variableDeclaration
  | declarator
  | importStatement
  | importClause
  | namespaceImport
  | namedImports
  | importRequire
  | exportStatement
  | exportSpecifier
  | statementBlock
  | switchBody
  | forLoop
  | forIn
  | catchClause
  | assignment
  | augmentedAssignment
  | update
  | parenthesized
  /-- `e as T`, `e satisfies T`, `e!` -/
  | assertion
  /-- `<T>e` -/
  | typeAssertion
  | elementOpening
  | elementSelfClosing
  | elementClosing
  | elementNamespaceName
  | element
  | enumDeclaration
  /-- `namespace N { }`, `module M { }` -/
  | moduleDeclaration
  | computedName
  | objectPattern
  | pairPattern
  | objectAssignmentPattern
  | restPattern
  | arrayPattern
  | assignmentPattern
  | parameter
  | object
  | array
  | regex
  | ternary
  | binary
  | unary
  | number
  | string
  /-- `true`, `false`, `null`, `undefined` -/
  | constant
  | templateString
  | templateSubstitution
  | spread
  /-- syntax that only carries types -/
  | typeOnly
  | comment
  | error
  /-- the keyword `async` -/
  | async
  | colon
  | comma
  /-- `&&`, `||`, `??` -/
  | logicalOperator
  | other
  deriving DecidableEq, Repr, Inhabited

namespace Kind

/-- The kind of the grammar's node name. -/
def ofName : String → Kind
  | "identifier" => identifier
  | "shorthand_property_identifier" => shorthandProperty
  | "shorthand_property_identifier_pattern" => shorthandPattern
  | "member_expression" => member
  | "subscript_expression" => subscript
  | "nested_identifier" => nestedIdentifier
  | "call_expression" => call
  | "arguments" => arguments
  | "new_expression" => construct
  | "function_declaration" => functionDeclaration
  | "generator_function_declaration" => functionDeclaration
  | "function_expression" => functionExpression
  | "function" => functionExpression
  | "generator_function" => functionExpression
  | "arrow_function" => arrowFunction
  | "method_definition" => method
  | "class_declaration" => classDeclaration
  | "abstract_class_declaration" => classDeclaration
  | "class" => classExpression
  | "lexical_declaration" => lexicalDeclaration
  | "variable_declaration" => variableDeclaration
  | "variable_declarator" => declarator
  | "import_statement" => importStatement
  | "import_clause" => importClause
  | "namespace_import" => namespaceImport
  | "named_imports" => namedImports
  | "import_require_clause" => importRequire
  | "export_statement" => exportStatement
  | "export_specifier" => exportSpecifier
  | "statement_block" => statementBlock
  | "switch_body" => switchBody
  | "for_statement" => forLoop
  | "for_in_statement" => forIn
  | "catch_clause" => catchClause
  | "assignment_expression" => assignment
  | "augmented_assignment_expression" => augmentedAssignment
  | "update_expression" => update
  | "parenthesized_expression" => parenthesized
  | "as_expression" => assertion
  | "satisfies_expression" => assertion
  | "non_null_expression" => assertion
  | "type_assertion" => typeAssertion
  | "jsx_opening_element" => elementOpening
  | "jsx_self_closing_element" => elementSelfClosing
  | "jsx_closing_element" => elementClosing
  | "jsx_namespace_name" => elementNamespaceName
  | "jsx_element" => element
  | "jsx_fragment" => element
  | "enum_declaration" => enumDeclaration
  | "internal_module" => moduleDeclaration
  | "module" => moduleDeclaration
  | "computed_property_name" => computedName
  | "object_pattern" => objectPattern
  | "pair_pattern" => pairPattern
  | "object_assignment_pattern" => objectAssignmentPattern
  | "rest_pattern" => restPattern
  | "array_pattern" => arrayPattern
  | "assignment_pattern" => assignmentPattern
  | "required_parameter" => parameter
  | "optional_parameter" => parameter
  | "object" => object
  | "array" => array
  | "regex" => regex
  | "ternary_expression" => ternary
  | "binary_expression" => binary
  | "unary_expression" => unary
  | "number" => number
  | "string" => string
  | "true" => constant
  | "false" => constant
  | "null" => constant
  | "undefined" => constant
  | "template_string" => templateString
  | "template_substitution" => templateSubstitution
  | "spread_element" => spread
  | "type_annotation" => typeOnly
  | "type_arguments" => typeOnly
  | "type_parameters" => typeOnly
  | "type_alias_declaration" => typeOnly
  | "interface_declaration" => typeOnly
  | "ambient_declaration" => typeOnly
  | "implements_clause" => typeOnly
  | "asserts_annotation" => typeOnly
  | "type_predicate_annotation" => typeOnly
  | "omitting_type_annotation" => typeOnly
  | "adding_type_annotation" => typeOnly
  | "opting_type_annotation" => typeOnly
  | "function_signature" => typeOnly
  | "abstract_method_signature" => typeOnly
  | "index_signature" => typeOnly
  | "comment" => comment
  | "ERROR" => error
  | "async" => async
  | ":" => colon
  | "," => comma
  | "&&" => logicalOperator
  | "||" => logicalOperator
  | "??" => logicalOperator
  | _ => other

/-- Wrapping that never changes the value of the wrapped expression. -/
def isTransparent : Kind → Bool
  | parenthesized | assertion | typeAssertion => true
  | _ => false

/-- Subtrees that hold no value: types and comments. -/
def isTypeOnly : Kind → Bool
  | typeOnly | comment => true
  | _ => false

/-- Nodes that open a function scope. -/
def isFunction : Kind → Bool
  | functionDeclaration | functionExpression | arrowFunction | method => true
  | _ => false

/-- Function expressions: the callbacks a hook call can be analysed with. -/
def isInlineFunction : Kind → Bool
  | functionExpression | arrowFunction => true
  | _ => false

end Kind

end HookLint.Syntax
