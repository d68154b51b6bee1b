/-! # Node kinds

The kinds of node that matter to the index, as the grammars of C and C++ name them.
-/
namespace FunctionIndex.Kind
set_option autoImplicit false

def functionDefinition : String := "function_definition"

def macroDefinition : String := "preproc_function_def"

def definitions : List String := [functionDefinition, macroDefinition]

def classes : List String := ["class_specifier", "struct_specifier"]

def namespaceDefinition : String := "namespace_definition"

def templateDeclaration : String := "template_declaration"

def storageClass : String := "storage_class_specifier"

/-- Newer grammars have a bare keyword here, older ones a node around it. -/
def virtualKeyword : String := "virtual"

def virtualSpecifier : String := "virtual_function_specifier"

def functionNames : List String := ["function_declarator", "reference_declarator"]

def macroNames : List String := ["identifier"]

/-- The children that name a class; a specialisation is named by its template type. -/
def classNames : List String := ["type_identifier", "template_type"]

/-- The children that name a namespace; older grammars use a plain identifier. -/
def namespaceNames : List String := ["namespace_identifier", "identifier"]

end FunctionIndex.Kind
