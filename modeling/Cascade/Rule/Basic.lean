import Cascade.Component.Basic

/-! Rules and the stylesheet they make up. -/
namespace Cascade

structure MediaFeature where
  name : Bytes
  value : Option (List Term)

structure MediaQuery where
  restrictor : Bytes
  medium : Bytes
  features : List MediaFeature

structure Block where
  name : Bytes
  content : List Declaration

structure Keyframe where
  stops : List Bytes
  content : List Declaration

structure Import where
  location : Component
  media : List MediaQuery

structure Namespace where
  location : Component
  name : Bytes

inductive Rule where
  | ruleset (selector : Component) (content : List Declaration)
  | media (queries : List MediaQuery) (content : List Rule)
  | supports (condition : Component) (content : List Rule)
  | page (name : Bytes) (content : List Declaration) (margins : List Block)
  | margin (block : Block)
  | fontFace (content : List Declaration)
  | fontFeatures (font : Bytes) (blocks : List Block)
  | featureBlock (block : Block)
  | keyframes (name vendor : Bytes) (frames : List Keyframe)
  | keyframe (frame : Keyframe)
  | stop (text : Bytes)
  | viewport (vendor : Bytes) (content : List Declaration)
  | counterStyle (name : Bytes) (content : List Declaration)
  | charset (name : Bytes)
  | importRule (rule : Import)
  | namespaceRule (rule : Namespace)
  | query (query : MediaQuery)
  | feature (feature : MediaFeature)
  | component (c : Component)

structure Stylesheet where
  charset : Option Bytes := none
  imports : List Import := []
  namespaces : List Namespace := []
  content : List Rule := []

end Cascade
