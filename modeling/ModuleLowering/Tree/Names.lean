import ModuleLowering.Tree.Form

/-!
The names that declarations bind and export.
-/

set_option autoImplicit false

namespace ModuleLowering

def Node.nameText : Node → String
  | .mk (.word name) _ _ => name
  | .mk (.string value) _ _ => value
  | .mk (.mention name _ _) _ _ => name
  | .mk (.ident name _) _ _ => name
  | .mk (.target name _) _ _ => name
  | .mk (.binder name _) _ _ => name
  | _ => ""

mutual

def Node.boundNames : Node → List (String × Option Span)
  | .mk (.binder name _) s _ => [(name, s)]
  | .mk (.bindingProperty _ _) _ [_, p] => p.boundNames
  | .mk .bindingDefault _ [p, _] => p.boundNames
  | .mk .bindingRest _ (p :: _) => p.boundNames
  | .mk .bindingArray _ ps => boundNamesOf ps
  | .mk .bindingObject _ ps => boundNamesOf ps
  | _ => []

def boundNamesOf : List Node → List (String × Option Span)
  | [] => []
  | p :: ps => p.boundNames ++ boundNamesOf ps

end

mutual

def Node.exportedNames : Node → List String
  | .mk (.exportNamed isType) _ ps => if isType then [] else specifierNames ps
  | .mk (.exportFrom isType _) _ ps => if isType then [] else specifierNames ps
  | .mk (.exportAll isType _) _ (name :: _) =>
    if isType || name.isAbsent then [] else [name.nameText]
  | .mk .exportDefault _ _ => ["default"]
  | .mk .exportDeclaration _ [.mk (.varDecl _ _) _ ds] => declaratorNames ds
  | .mk .exportDeclaration _ [.mk (.function _) _ (name :: _)] => name.boundNames.map Prod.fst
  | .mk .exportDeclaration _ [.mk (.classDef _) _ (name :: _)] => name.boundNames.map Prod.fst
  | .mk _ _ ps => Node.exportedNamesOfParts ps

def Node.exportedNamesOfParts : List Node → List String
  | [] => []
  | p :: ps => p.exportedNames ++ Node.exportedNamesOfParts ps

def specifierNames : List Node → List String
  | [] => []
  | .mk (.exportSpecifier false) _ [_, exported] :: ps => exported.nameText :: specifierNames ps
  | _ :: ps => specifierNames ps

def declaratorNames : List Node → List String
  | [] => []
  | .mk (.declarator _) _ (p :: _) :: ds => p.boundNames.map Prod.fst ++ declaratorNames ds
  | _ :: ds => declaratorNames ds

end

end ModuleLowering
