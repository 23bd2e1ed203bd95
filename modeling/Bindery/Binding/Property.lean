import Bindery.Text

/-!
# Properties of bindings

Everything that can be asked of a binding: what it was made from, what is computed from that for the
server and for the client, and the bindings derived from it.
-/

namespace Bindery

inductive Property where
  | originalString
  | parsedExpression
  | dataContext
  | expectedType
  | declaringProperty
  | treeRoot
  | locationInfo
  | resultType
  | castedExpression
  | readDelegate
  | writeDelegate
  | scriptAST
  | resolvedScript
  | cellScript
  | valueScript
  | cellWrappedScript
  | optionsLambdaScript
  | simplePath
  | siblingIndex
  | id
  | negatedBinding
  | isNullBinding
  | isNullOrEmptyBinding
  | isNullOrWhitespaceBinding
  | isMoreThanZeroBinding
  | dataSourceAccess
  | dataSourceLength
  | dataSourceCurrentElement
  | collectionElementScope
  | thisBinding
  | referencedProperties
deriving DecidableEq

namespace Property

def name : Property → Text
  | .originalString => "OriginalString"
  | .parsedExpression => "ParsedExpression"
  | .dataContext => "DataContext"
  | .expectedType => "ExpectedType"
  | .declaringProperty => "DeclaringProperty"
  | .treeRoot => "TreeRoot"
  | .locationInfo => "LocationInfo"
  | .resultType => "ResultType"
  | .castedExpression => "CastedExpression"
  | .readDelegate => "ReadDelegate"
  | .writeDelegate => "WriteDelegate"
  | .scriptAST => "ScriptAST"
  | .resolvedScript => "ResolvedScript"
  | .cellScript => "CellScript"
  | .valueScript => "ValueScript"
  | .cellWrappedScript => "CellWrappedScript"
  | .optionsLambdaScript => "OptionsLambdaScript"
  | .simplePath => "SimplePath"
  | .siblingIndex => "SiblingIndex"
  | .id => "ID"
  | .negatedBinding => "NegatedBinding"
  | .isNullBinding => "IsNullBinding"
  | .isNullOrEmptyBinding => "IsNullOrEmptyBinding"
  | .isNullOrWhitespaceBinding => "IsNullOrWhitespaceBinding"
  | .isMoreThanZeroBinding => "IsMoreThanZeroBinding"
  | .dataSourceAccess => "DataSourceAccess"
  | .dataSourceLength => "DataSourceLength"
  | .dataSourceCurrentElement => "DataSourceCurrentElement"
  | .collectionElementScope => "CollectionElementScope"
  | .thisBinding => "ThisBinding"
  | .referencedProperties => "ReferencedProperties"

def all : List Property := [
  .originalString, .parsedExpression, .dataContext, .expectedType, .declaringProperty, .treeRoot,
  .locationInfo, .resultType, .castedExpression, .readDelegate, .writeDelegate, .scriptAST,
  .resolvedScript, .cellScript, .valueScript, .cellWrappedScript, .optionsLambdaScript, .simplePath,
  .siblingIndex, .id, .negatedBinding, .isNullBinding, .isNullOrEmptyBinding,
  .isNullOrWhitespaceBinding, .isMoreThanZeroBinding, .dataSourceAccess, .dataSourceLength,
  .dataSourceCurrentElement, .collectionElementScope, .thisBinding, .referencedProperties]

def ofName? (name : Text) : Option Property := all.find? fun p => p.name == name

def nameOfNumber (n : Nat) : Text :=
  match n with
  | 0 => "binding.Property(0)"
  | i + 1 => match all[i]? with
    | some p => p.name
    | none => "binding.Property(" ++ Text.ofNat n ++ ")"

end Property

end Bindery
