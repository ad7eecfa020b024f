import XmlOxydizer.Library.Forest
import XmlOxydizer.Tree.Builder

/-!
# The `build_tree!` macro

`macros.rs`. An invocation is a list of token trees, and its expansion is the sequence of the builder calls
that the nested blocks make on their one builder, in order. The value of a struct literal is a parameter: the
rule types are the client's. An invocation that no arm matches does not compile.
-/

namespace XmlOxydizer

open Markup

variable {R : Type}

/-- The token trees that the arms of the macro tell apart. -/
inductive TokenTree
  | literal (value : String)
  | ident (name : String)
  | comma
  | pathSep
  | braces (body : List TokenTree)
  | other (text : String)

/-- `$($rule_path:ident)::+ { $($fields:tt)* }`. -/
structure RuleLiteral where
  path : List String
  fields : List TokenTree
  path_ne : path ≠ []

lemma RuleLiteral.singleton_ne (name : String) : [name] ≠ [] := List.cons_ne_nil _ _

/-- Matches a struct literal at the front, and returns it with the tokens behind it. -/
def matchRule : List TokenTree → Option (RuleLiteral × List TokenTree)
  | .ident name :: .pathSep :: tokens =>
    match matchRule tokens with
    | some (rule, rest) => some (⟨name :: rule.path, rule.fields, List.cons_ne_nil _ _⟩, rest)
    | none => none
  | .ident name :: .braces fields :: rest => some (⟨[name], fields, RuleLiteral.singleton_ne name⟩, rest)
  | _ => none

lemma sizeOf_matchRule {tokens rest : List TokenTree} {rule : RuleLiteral}
    (h : matchRule tokens = some (rule, rest)) : sizeOf rest < sizeOf tokens := by
  fun_induction matchRule tokens generalizing rule with
  | case1 name tokens rule' rest' heq ih =>
    cases h
    have hlt := ih heq
    simp only [List.cons.sizeOf_spec]
    omega
  | case2 => cases h
  | case3 name fields rest' =>
    cases h
    simp only [List.cons.sizeOf_spec]
    omega
  | case4 => cases h

/-- The `@mode` arms. -/
def expandMode : String → Option (BuilderCall R)
  | "streaming" => some .streaming
  | "capture" => some .captureSubtree
  | _ => none

/-- The `@items` arms, in the order in which they are tried. -/
def expandItems (value : RuleLiteral → R) (tokens : List TokenTree) : Option (List (BuilderCall R)) :=
  match tokens with
  | [] => some []
  -- child node with explicit mode, then comma and rest
  | .literal tag :: .ident mode :: .braces childBody :: .comma :: rest => do
    let access ← expandMode mode
    let child ← expandItems value childBody
    let more ← expandItems value rest
    return .node tag :: access :: (child ++ .done :: more)
  -- child node with explicit mode, last item
  | [.literal tag, .ident mode, .braces childBody] => do
    let access ← expandMode mode
    let child ← expandItems value childBody
    return .node tag :: access :: (child ++ [.done])
  -- child node without mode, then comma and rest
  | .literal tag :: .braces childBody :: .comma :: rest => do
    let child ← expandItems value childBody
    let more ← expandItems value rest
    return .node tag :: (child ++ .done :: more)
  -- child node without mode, last item
  | [.literal tag, .braces childBody] => do
    let child ← expandItems value childBody
    return .node tag :: (child ++ [.done])
  | tokens =>
    match _h : matchRule tokens with
    -- rule, then comma and rest
    | some (rule, .comma :: rest) => do
      let more ← expandItems value rest
      return .rule (value rule) :: more
    -- rule, last item
    | some (rule, []) => some [.rule (value rule)]
    | _ => none
termination_by sizeOf tokens
decreasing_by
  all_goals try (simp only [List.cons.sizeOf_spec, TokenTree.braces.sizeOf_spec]; omega)
  have hlt := sizeOf_matchRule _h
  simp only [List.cons.sizeOf_spec] at hlt
  omega

/-- The entry points: the tag of the root, and the calls on its builder. -/
def expand (value : RuleLiteral → R) : List TokenTree → Option (String × List (BuilderCall R))
  | [.literal tag, .ident mode, .braces body] => do
    let access ← expandMode mode
    let items ← expandItems value body
    return (tag, access :: items)
  | [.literal tag, .braces body] => do
    let items ← expandItems value body
    return (tag, items)
  | _ => none

/-- The value of an invocation of `build_tree!`, which ends in the call of `build`. -/
def buildTree [Rule R] (value : RuleLiteral → R) (tokens : List TokenTree) :
    Option (Except (Abort BuilderError) (DescriptorTree R)) := do
  let (tag, calls) ← expand value tokens
  return do
    let builder ← orPanic ((TreeBuilder.new tag).calls calls)
    builder.build

end XmlOxydizer
