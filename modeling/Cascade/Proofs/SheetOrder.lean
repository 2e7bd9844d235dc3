import Cascade.Optimizer.Rules
import Cascade.Proofs.Repeated
import Cascade.Sheet.Reader
import Mathlib.Data.List.Basic

/-! The order of the statements of a stylesheet. Reading sorts them into groups, written one after the other. -/
namespace Cascade
open List
open Rule (text importRule namespaceRule)
open Stylesheet (add)

def Rule.group : Rule → Nat
  | .charset _ => 0
  | .importRule _ => 1
  | .namespaceRule _ => 2
  | _ => 3

def Rule.isLeading (rule : Rule) : Bool := rule.group == 1 || rule.group == 2

def Rule.isContent (rule : Rule) : Bool := rule.group == 3

def Stylesheet.statements (s : Stylesheet) : List Rule :=
  (s.charset.map Rule.charset).toList ++ s.imports.map Rule.importRule ++
    s.namespaces.map Rule.namespaceRule ++ s.content

theorem statementsText (s : Stylesheet) : s.text = (s.statements.map text).flatten := by
  obtain ⟨charset,imports,namespaces,content⟩ := s
  have imported : (imports.map importRule).map text = imports.map Import.text := by
    simp [text,Function.comp_def]
  have named : (namespaces.map namespaceRule).map text = namespaces.map Namespace.text := by
    simp [text,Function.comp_def]
  cases charset with
  | none => simp [Stylesheet.text,Stylesheet.statements,imported,named]
  | some name => simp [Stylesheet.text,Stylesheet.statements,text,imported,named]

section
variable {α : Type} (group : α → Nat)

def grouped (as : List α) : List α :=
  as.filter (group · == 1) ++ as.filter (group · == 2) ++ as.filter (group · == 3)

/- All groups one after the other. Of the first one only what stands in front of all is left. -/
def inGroups (as : List α) : List α := (as.take 1).filter (group · == 0) ++ grouped group as

def Ordered (as : List α) : Prop := as.Pairwise fun a b => group a ≤ group b ∧ group b ≠ 0

variable {group} {as : List α}

theorem groupedOrdered (as) : Ordered group (grouped group as) := by
  have one : ∀ n, n ≠ 0 → Ordered group (as.filter (group · == n)) := by
    intro n positive
    refine List.Pairwise.imp_of_mem ?_ (pairwise_of_forall fun _ _ => trivial)
    intro a b first second _
    have left : group a = n := by simpa using of_mem_filter first
    have right : group b = n := by simpa using of_mem_filter second
    omega
  simp only [Ordered,grouped,pairwise_append,mem_append,mem_filter,beq_iff_eq]
  refine ⟨⟨one 1 (by omega),one 2 (by omega),?_⟩,one 3 (by omega),?_⟩ <;> intro a first b second <;> omega

theorem inGroupsOrdered (as) : Ordered group (inGroups group as) := by
  have later : ∀ b ∈ grouped group as, group b ≠ 0 := by
    intro b mem
    simp only [grouped,mem_append,mem_filter,beq_iff_eq] at mem
    omega
  cases as with
  | nil => exact List.Pairwise.nil
  | cons a as =>
    by_cases first : group a = 0
    · simp only [inGroups,take_succ_cons,take_zero,filter_cons,first,filter_nil,beq_self_eq_true,
        if_true,singleton_append,Ordered,pairwise_cons]
      exact ⟨fun b mem => ⟨Nat.zero_le _,later b mem⟩,groupedOrdered _⟩
    · simpa [inGroups,first] using groupedOrdered (a :: as)

theorem groupedSelf (order : Ordered group as) (known : ∀ a ∈ as, 1 ≤ group a ∧ group a ≤ 3) :
    grouped group as = as := by
  induction as with
  | nil => rfl
  | cons a as ih =>
    obtain ⟨least,order⟩ := pairwise_cons.mp order
    have rest := ih order fun b mem => known b (mem_cons_of_mem a mem)
    -- Nothing behind the first one belongs to a group before its own.
    have bare : ∀ n, n < group a → as.filter (group · == n) = [] := by
      intro n small
      refine filter_eq_nil_iff.mpr fun b mem => ?_
      have := (least b mem).1
      simp only [beq_iff_eq]
      omega
    have here := known a mem_cons_self
    simp only [grouped] at rest ⊢
    obtain one | two | three : group a = 1 ∨ group a = 2 ∨ group a = 3 := by omega
    · simp only [filter_cons,one] at rest ⊢
      simpa using rest
    · have first := bare 1 (by omega)
      simp only [filter_cons,two,first] at rest ⊢
      simpa using rest
    · have first := bare 1 (by omega)
      have second := bare 2 (by omega)
      simp only [filter_cons,three,first,second] at rest ⊢
      simpa using rest

theorem inGroupsSelf (known : ∀ a ∈ as, group a ≤ 3) : inGroups group as = as ↔ Ordered group as := by
  constructor
  · intro same
    rw [← same]
    exact inGroupsOrdered as
  · intro order
    cases as with
    | nil => rfl
    | cons a as =>
      obtain ⟨least,tail⟩ := pairwise_cons.mp order
      by_cases first : group a = 0
      · have rest : grouped group as = as := groupedSelf tail fun b mem => by
          have := (least b mem).2
          have := known b (mem_cons_of_mem a mem)
          omega
        simpa [inGroups,grouped,first] using rest
      · have rest : grouped group (a :: as) = a :: as := groupedSelf order fun b mem => by
          have := known b mem
          rcases mem_cons.mp mem with rfl | old
          · omega
          · have := (least b old).2
            omega
        simpa [inGroups,first] using rest

theorem earlierGroup {a b} (first : a ∈ as) (second : b ∈ as) (leads : group a = 1 ∨ group a = 2)
    (follows : group b = 3) : List.Sublist [a,b] (inGroups group as) := by
  have front : List.Sublist [a] (as.filter (group · == 1) ++ as.filter (group · == 2)) := by
    refine singleton_sublist.mpr (mem_append.mpr ?_)
    rcases leads with one | two
    · exact .inl (mem_filter.mpr ⟨first,by simp [one]⟩)
    · exact .inr (mem_filter.mpr ⟨first,by simp [two]⟩)
  have back : List.Sublist [b] (as.filter (group · == 3)) :=
    singleton_sublist.mpr (mem_filter.mpr ⟨second,by simp [follows]⟩)
  exact (front.append back).trans (sublist_append_right _ _)

theorem inGroupsMap {β} (f) (bs : List β) : (inGroups (fun b => group (f b)) bs).map f = inGroups group (bs.map f) := by
  have each : ∀ n (bs : List β), (bs.filter fun b => group (f b) == n).map f = (bs.map f).filter (group · == n) := by
    intro n bs
    rw [filter_map]
    rfl
  simp only [inGroups,grouped,map_append,each,map_take]

end

def Stylesheet.isFresh (s : Stylesheet) : Bool :=
  s.charset.isNone && s.imports.isEmpty && s.namespaces.isEmpty && s.content.isEmpty

section
variable (s : Stylesheet) (rule : Rule) (rules : List Rule)

theorem addLeading : (s.add rule).imports.map importRule =
      s.imports.map importRule ++ [rule].filter (·.group == 1) ∧
    (s.add rule).namespaces.map namespaceRule =
      s.namespaces.map namespaceRule ++ [rule].filter (·.group == 2) ∧
    (s.add rule).content = s.content ++ [rule].filter (·.group == 3) := by
  cases rule with
  | charset name =>
    have same : s.add (.charset name) = s ∨ s.add (.charset name) = { s with charset := some name } := by
      simp only [add]
      split
      · exact .inr rfl
      · exact .inl rfl
    rcases same with same | same <;> simp [same,Rule.group]
  | _ => simp [add,Rule.group]

theorem addFirst : ((({} : Stylesheet).add rule).charset.map Rule.charset).toList = [rule].filter (·.group == 0) ∧
    (({} : Stylesheet).add rule).isFresh = false := by
  cases rule <;> exact ⟨rfl,rfl⟩

variable {s}

theorem addLater (stale : s.isFresh = false) : (s.add rule).charset = s.charset ∧ (s.add rule).isFresh = false := by
  cases rule with
  | charset name =>
    have same : s.add (.charset name) = s := if_neg (by simpa [Stylesheet.isFresh] using stale)
    rw [same]
    exact ⟨rfl,stale⟩
  | _ => simp [add,Stylesheet.isFresh]

variable (s)

theorem allLeading : (rules.foldl add s).imports.map importRule =
      s.imports.map importRule ++ rules.filter (·.group == 1) ∧
    (rules.foldl add s).namespaces.map namespaceRule =
      s.namespaces.map namespaceRule ++ rules.filter (·.group == 2) ∧
    (rules.foldl add s).content = s.content ++ rules.filter (·.group == 3) := by
  induction rules generalizing s with
  | nil => simp
  | cons rule rules ih =>
    obtain ⟨imports,namespaces,content⟩ := ih (s.add rule)
    obtain ⟨imported,named,added⟩ := addLeading s rule
    simp only [foldl_cons,imports,namespaces,content,imported,named,added,append_assoc,← filter_append,
      singleton_append,and_self]

variable {s}

theorem allLater (stale : s.isFresh = false) : (rules.foldl add s).charset = s.charset := by
  induction rules generalizing s with
  | nil => rfl
  | cons rule rules ih =>
    obtain ⟨same,still⟩ := addLater rule stale
    exact (ih still).trans same

theorem addedStatements : (rules.foldl add {}).statements = inGroups Rule.group rules := by
  obtain ⟨imports,namespaces,content⟩ := allLeading {} rules
  have charset : ((rules.foldl add {}).charset.map Rule.charset).toList = (rules.take 1).filter (·.group == 0) := by
    cases rules with
    | nil => rfl
    | cons rule rules =>
      obtain ⟨first,stale⟩ := addFirst rule
      rw [foldl_cons,allLater rules stale,first]
      rfl
  simp only [Stylesheet.statements,imports,namespaces,content,charset,inGroups,grouped,map_nil,nil_append,
    append_assoc]

end

def placedRules (bytes : Bytes) : List (Rule × Nat) :=
  (readContents ((sourceText bytes).length + 2) .stylesheet (sourceText bytes)).value.1.zipIdx

def writtenRules (placed : List (Rule × Nat)) : List (Rule × Nat) := inGroups (fun p => p.1.group) placed

theorem readStatements (bytes) : (Stylesheet.read bytes).value.statements =
    (writtenRules (placedRules bytes)).map Prod.fst := by
  have sheet : (Stylesheet.read bytes).value = ((placedRules bytes).map Prod.fst).foldl add {} := by
    simp only [placedRules,zipIdx_map_fst]
    simp only [Stylesheet.read,Stylesheet.ofText,Noted.valueBind]
    split <;> rfl
  rw [sheet,addedStatements,writtenRules,inGroupsMap]

def StaysBehind (placed written : List (Rule × Nat)) : Prop :=
  ∀ c ∈ placed, ∀ i ∈ placed, c.1.isContent = true → i.1.isLeading = true → c.2 < i.2 → ¬List.Sublist [i,c] written

theorem placedApart {bytes p q} (first : p ∈ placedRules bytes) (second : q ∈ placedRules bytes)
    (same : p.2 = q.2) : p.1 = q.1 := by
  obtain ⟨_,_,here⟩ := mem_zipIdx first
  obtain ⟨_,_,there⟩ := mem_zipIdx second
  simp only [here,there,same]

/- Every import and namespace is written in front of all content. A text comes out with its statements
in order if their groups are, and an import or namespace behind content stays there only if there is
none. -/
theorem leadingRulesMoveUp (bytes : Bytes) :
    (Stylesheet.read bytes).value.text = ((writtenRules (placedRules bytes)).map (·.1.text)).flatten ∧
    (writtenRules (placedRules bytes) = placedRules bytes ↔ Ordered (fun p => p.1.group) (placedRules bytes)) ∧
    (StaysBehind (placedRules bytes) (writtenRules (placedRules bytes)) ↔
      ∀ c ∈ placedRules bytes, ∀ i ∈ placedRules bytes, c.1.isContent = true → i.1.isLeading = true → i.2 < c.2) := by
  refine ⟨?_,inGroupsSelf fun p _ => by cases p.1 <;> simp [Rule.group],
    fun stays c first i second content leading => ?_,fun front c first i second => ?_⟩
  · rw [statementsText,readStatements,map_map]
    rfl
  · have follows : c.1.group = 3 := by simpa [Rule.isContent] using content
    have leads : i.1.group = 1 ∨ i.1.group = 2 := by simpa [Rule.isLeading] using leading
    have moved : List.Sublist [i,c] (writtenRules (placedRules bytes)) := earlierGroup second first leads follows
    have behind : ¬c.2 < i.2 := fun before => stays c first i second content leading before moved
    have apart : c.2 ≠ i.2 := by
      intro same
      have alike := congrArg Rule.group (placedApart first second same)
      omega
    omega
  · intro content leading behind
    have := front c first i second content leading
    omega

def importBehind : Bytes := ascii "@font-face\x7b--x:y\x7d@import \"b\";"

theorem importBehindRead : placedRules importBehind =
    [(.fontFace [.property (ascii "--x") [⟨0,.ident (ascii "y")⟩] false false],0),(.importRule ⟨.quoted (ascii "b"),[]⟩,1)] := by
  with_unfolding_all rfl

theorem importBehindMovesUp :
    (Stylesheet.read importBehind).value.text = ascii "@import \"b\";@font-face\x7b--x:y\x7d" ∧
    ¬StaysBehind (placedRules importBehind) (writtenRules (placedRules importBehind)) := by
  obtain ⟨written,_,stays⟩ := leadingRulesMoveUp importBehind
  rw [stays,written,importBehindRead]
  refine ⟨rfl,fun front => ?_⟩
  exact absurd (front _ mem_cons_self _ (mem_cons_of_mem _ mem_cons_self) rfl rfl) (by decide)

def importTexts (ctx : Context) (s : Stylesheet) : List Bytes := s.imports.map fun i => (i.optimize ctx).value.text

def importTextsLeft (ctx : Context) (s : Stylesheet) : List Bytes := (s.optimize ctx).value.imports.map Import.text

def KeepsPrecedence (given left : List Bytes) : Prop :=
  ∀ a ∈ given, ∀ b ∈ given, a ≠ b → (LastBefore given a b ↔ FirstBefore left a b)

/- Every import is left once, in the order of the first ones. The order of the last ones, which decides
between stylesheets, is kept exactly where it is the same. -/
theorem firstImportsStay (ctx : Context) (s : Stylesheet) :
    (importTextsLeft ctx s).Nodup ∧ (∀ text, text ∈ importTextsLeft ctx s ↔ text ∈ importTexts ctx s) ∧
    (∀ a b, FirstBefore (importTextsLeft ctx s) a b ↔ FirstBefore (importTexts ctx s) a b) ∧
    (KeepsPrecedence (importTexts ctx s) (importTextsLeft ctx s) ↔
      ∀ a ∈ importTexts ctx s, ∀ b ∈ importTexts ctx s, a ≠ b →
        (LastBefore (importTexts ctx s) a b ↔ FirstBefore (importTexts ctx s) a b)) := by
  have given : importTexts ctx s = (s.imports.map fun i => (i.optimize ctx).value).map Import.text := by
    simp [importTexts]
  have left : importTextsLeft ctx s =
      (distinctBy Import.text (s.imports.map fun i => (i.optimize ctx).value)).map Import.text := by
    simp only [importTextsLeft,Stylesheet.optimize,Noted.valueBind,Noted.valuePure,Noted.valueMapM]
  have order : ∀ a b, FirstBefore (importTextsLeft ctx s) a b ↔ FirstBefore (importTexts ctx s) a b := by
    intro a b
    rw [left,given]
    exact distinctOrder not_mem_nil not_mem_nil
  refine ⟨?_,?_,order,?_⟩
  · rw [left]
    exact distinctFromNodup [] _
  · rw [left,given]
    exact distinctTexts
  · simp only [KeepsPrecedence,order]

def importTwice : Stylesheet := { imports := ["a","b","a"].map fun name => ⟨.quoted (ascii name),[]⟩ }

theorem importTwiceMisplaced :
    importTexts {} importTwice = [ascii "@import \"a\";",ascii "@import \"b\";",ascii "@import \"a\";"] ∧
    importTextsLeft {} importTwice = [ascii "@import \"a\";",ascii "@import \"b\";"] ∧
    ¬KeepsPrecedence (importTexts {} importTwice) (importTextsLeft {} importTwice) := by
  obtain ⟨_,_,_,kept⟩ := firstImportsStay {} importTwice
  have given : importTexts {} importTwice =
      [ascii "@import \"a\";",ascii "@import \"b\";",ascii "@import \"a\";"] := rfl
  refine ⟨given,rfl,?_⟩
  rw [kept,given]
  decide

end Cascade
