import Cascade.Proofs.Joined
import Cascade.Proofs.Lasting
import Mathlib.Order.MinMax
import Mathlib.Order.WithBot

/-! The cascade of a list of rulesets, as one element sees it. A ruleset with a matching
selector puts its declarations forward under the highest specificity of its selectors
that match; importance decides, then specificity, then order. -/
namespace Cascade
open List Declaration Component

variable {ds es : List Declaration} {ss : List Component}

def rulesets (rules : List Rule) : List Ruleset := rules.filterMap Ruleset.ofRule?

@[simp] theorem ofRuleRule (r) : Ruleset.ofRule? r.rule = some r := rfl

def selectorsOf (rules : List Rule) (s : Component) : Prop := ∃ r ∈ rulesets rules, s ∈ r.selectors

def declarationsOf (rules : List Rule) (d : Declaration) : Prop := ∃ r ∈ rulesets rules, d ∈ r.content

def Ruleset.texts (r : Ruleset) : List Bytes := r.selectors.map Component.text

theorem textOfTexts (r : Ruleset) : r.selector.text = [44].intercalate r.texts := by
  unfold Ruleset.texts Ruleset.selectors selectors
  split
  · rename_i ss same
    rw [same,Component.text,textsMap]
  · simp [List.intercalate]

variable {σ : Type} [LinearOrder σ]

/- What one element sees of the rulesets: the selectors that match it, by their text, the
specificity of each, and the declarations that count. -/
structure Sight (σ : Type) where
  hits : Bytes → Bool
  specificity : Bytes → σ
  admits : Declaration → Bool

def Sight.highest (v : Sight σ) (texts : List Bytes) : WithBot σ :=
  (texts.filter v.hits).foldr (fun text top => max (v.specificity text : WithBot σ) top) ⊥

structure Claimant (σ : Type) where
  important : Bool
  rank : WithBot σ
  declaration : Declaration

def Claimant.weight (c : Claimant σ) : Bool ×ₗ WithBot σ := toLex (c.important,c.rank)

open Claimant (weight)

def claims (rank : WithBot σ) (ds : List Declaration) : List (Claimant σ) :=
  if rank = ⊥ then [] else ds.map fun d => ⟨d.isImportant,rank,d⟩

def Sight.claimants (v : Sight σ) (r : Ruleset) : List (Claimant σ) :=
  claims (v.highest r.texts) (r.content.filter v.admits)

def Sight.contest (v : Sight σ) (rules : List Rule) : List (Claimant σ) :=
  (rulesets rules).flatMap v.claimants

def Sight.winner (v : Sight σ) (rules : List Rule) : Option Declaration :=
  (strongest weight (v.contest rules)).map Claimant.declaration

section
variable (v : Sight σ)

theorem contestAppend (rules more) : v.contest (rules ++ more) = v.contest rules ++ v.contest more := by
  rw [Sight.contest,rulesets,filterMap_append,flatMap_append]
  rfl

theorem contestRuleset {rule r} (is : Ruleset.ofRule? rule = some r)
    (rules) : v.contest (rule :: rules) = v.claimants r ++ v.contest rules := by
  rw [Sight.contest,rulesets,filterMap_cons_some is,flatMap_cons]
  rfl

theorem contestOther {rule} (other : Ruleset.ofRule? rule = none) (rules) :
    v.contest (rule :: rules) = v.contest rules := by
  rw [Sight.contest,rulesets,filterMap_cons_none other]
  rfl

end

section
variable {v : Sight σ}

theorem highestLe {texts bound} :
    v.highest texts ≤ bound ↔
      ∀ text ∈ texts, v.hits text → (v.specificity text : WithBot σ) ≤ bound := by
  induction texts with
  | nil => simp [Sight.highest]
  | cons text texts ih =>
    unfold Sight.highest at ih ⊢
    cases hit : v.hits text with
    | true =>
      rw [filter_cons_of_pos hit,foldr_cons,max_le_iff,ih]
      simp [hit]
    | false =>
      rw [filter_cons_of_neg (by simp [hit]),ih]
      simp [hit]

theorem leHighest {texts text} (mem : text ∈ texts)
    (hit : v.hits text) : (v.specificity text : WithBot σ) ≤ v.highest texts :=
  highestLe.mp (le_refl _) text mem hit

theorem highestMono {ss ts} (sub : ∀ s ∈ ss, s ∈ ts) : v.highest ss ≤ v.highest ts :=
  highestLe.mpr fun s mem hit => leHighest (sub s mem) hit

theorem highestCongr {ss ts} (same : ∀ s, s ∈ ss ↔ s ∈ ts) : v.highest ss = v.highest ts :=
  le_antisymm (highestMono fun s => (same s).mp) (highestMono fun s => (same s).mpr)

theorem highestAppend (ss ts) : v.highest (ss ++ ts) = max (v.highest ss) (v.highest ts) := by
  apply le_antisymm
  · apply highestLe.mpr
    intro text mem hit
    rcases mem_append.mp mem with left | right
    · exact le_max_of_le_left (leHighest left hit)
    · exact le_max_of_le_right (leHighest right hit)
  · exact max_le (highestMono fun s => mem_append_left ts)
      (highestMono fun s => mem_append_right ss)

theorem highestBot {texts} : v.highest texts = ⊥ ↔ ∀ text ∈ texts, v.hits text = false := by
  rw [← le_bot_iff,highestLe]
  simp

end

theorem claimsMem {rank} {c : Claimant σ} : c ∈ claims rank ds ↔ rank ≠ ⊥ ∧ ∃ d ∈ ds, c = ⟨d.isImportant,rank,d⟩ := by
  unfold claims
  split
  · rename_i bot
    simp [bot]
  · rename_i full
    simp only [mem_map,ne_eq,full,not_false_eq_true,true_and]
    constructor <;> rintro ⟨d,mem,same⟩ <;> exact ⟨d,mem,same.symm⟩

theorem claimantsNil {v : Sight σ} {r} (h : (∀ s ∈ r.selectors, v.hits s.text = false) ∨
    ∀ d ∈ r.content, v.admits d = false) : v.claimants r = [] := by
  rw [Sight.claimants,claims]
  rcases h with unseen | unsaid
  · apply if_pos
    exact highestBot.mpr (forall_mem_map.mpr unseen)
  · rw [filter_eq_nil_iff.mpr fun d mem => by simp [unsaid d mem]]
    split <;> rfl

theorem claimsAppend (rank : WithBot σ) (ds es) : claims rank (ds ++ es) = claims rank ds ++ claims rank es := by
  unfold claims
  split
  · rfl
  · exact map_append

theorem claimsFilter (rank : WithBot σ) (ds keep) :
    claims rank (ds.filter keep) = (claims rank ds).filter fun c => keep c.declaration := by
  unfold claims
  split
  · rfl
  · rw [filter_map]
    rfl

theorem weightLe {a b : Claimant σ} (important : a.important ≤ b.important) (rank : a.rank ≤ b.rank) :
    a.weight ≤ b.weight := by
  rw [weight,weight,Prod.Lex.toLex_le_toLex]
  rcases lt_or_eq_of_le important with less | same
  · exact .inl less
  · exact .inr ⟨same,rank⟩

theorem weightLt {a b : Claimant σ} (important : a.important = b.important) (rank : a.rank < b.rank) :
    a.weight < b.weight := by
  rw [weight,weight,Prod.Lex.toLex_lt_toLex]
  exact .inr ⟨important,rank⟩

theorem claimsThinned (rank : WithBot σ) (h : Thinned isImportant ds es) :
    Thinned weight (claims rank ds) (claims rank es) := by
  unfold claims
  split
  · exact .nil
  · refine thinnedMap _ ?_ h
    intro d e le
    exact weightLe le (le_refl rank)

def Declaration.face (d : Declaration) : Bytes × Bool × Bytes := (d.key,d.isImportant,d.text)

/- The state behind a name, in which the next byte is escaped or not; none if a colon ends the name
before. -/
def nameEnd : Bool → Bytes → Option Bool
  | escaped,[] => some escaped
  | true,_ :: s => nameEnd false s
  | false,b :: s => if b == 58 then none else nameEnd (b == 92) s

theorem sealedSplit {k} {a b x y : Bytes} (left : nameEnd k a = some false) (right : nameEnd k b = some false)
    (same : a ++ 58 :: x = b ++ 58 :: y) : a = b := by
  induction a generalizing k b with
  | nil =>
    rw [nameEnd] at left
    cases Option.some.inj left
    cases b with
    | nil => rfl
    | cons c b =>
      rw [← (List.cons.inj same).1,nameEnd] at right
      cases right
  | cons c a ih =>
    cases b with
    | nil =>
      cases Option.some.inj right
      rw [(List.cons.inj same).1] at left
      cases left
    | cons c' b =>
      obtain ⟨rfl,rest⟩ := List.cons.inj same
      refine congrArg (c :: ·) ?_
      cases k with
      | true =>
        exact ih left right rest
      | false =>
        rw [nameEnd] at left right
        split at left
        · cases left
        · rename_i colon
          rw [if_neg colon] at right
          exact ih left right rest

theorem textName (d : Declaration) : ∃ s, d.text = d.rawName ++ 58 :: s := by
  cases d with
  | property name value important slashNine =>
    exact ⟨_,by rw [Declaration.text,append_assoc]; rfl⟩
  | filter name value => exact ⟨value,by rw [Declaration.text]; rfl⟩

/- Declarations that are told by their texts: the name ends at a colon and is written as it is compared, and none but the
last marks end the declaration or make it important. -/
structure Declaration.Told (d : Declaration) : Prop where
  own : d.rawName = d.key
  ended : nameEnd false d.rawName = some false
  free : 59 ∉ d.text
  marked : 33 ∈ d.text → d.isImportant = true

theorem toldFace {d e : Declaration} (left : d.Told) (right : e.Told) (text : d.text = e.text) : d.face = e.face := by
  obtain ⟨x,hx⟩ := textName d
  obtain ⟨y,hy⟩ := textName e
  have name : d.rawName = e.rawName := sealedSplit left.ended right.ended (by rw [← hx,← hy,text])
  have shown : ∀ d : Declaration, d.isImportant → 33 ∈ d.text := by
    intro d important
    cases d with
    | filter => cases important
    | property name value flag slashNine =>
      cases (show flag = true from important)
      simp [Declaration.text,declarationEnd,ascii]
  have important : d.isImportant = e.isImportant := Bool.eq_iff_iff.mpr
    ⟨fun is => right.marked (text ▸ shown d is),fun is => left.marked (text ▸ shown e is)⟩
  rw [face,face,← left.own,← right.own,name,important,text]

theorem toldSeparable {pool} (told : ∀ d, pool d → d.Told) : Separable 59 Declaration.text face pool := by
  refine separableOf (fun d mem => ⟨?_,(told d mem).free⟩) fun d e left right => toldFace (told d left) (told e right)
  obtain ⟨s,same⟩ := textName d
  simp [same]

theorem faceParts {d e : Declaration} (same : d.face = e.face) :
    d.key = e.key ∧ d.isImportant = e.isImportant ∧ d.text = e.text := by
  simpa [face] using same

theorem faceForall {rel} (same : ds.map face = es.map face)
    (each : ∀ d ∈ ds, ∀ e ∈ es, d.face = e.face → rel d e) : List.Forall₂ rel ds es := by
  induction ds generalizing es with
  | nil =>
    rw [map_eq_nil_iff.mp same.symm]
    exact .nil
  | cons d ds ih =>
    cases es with
    | nil => cases same
    | cons e es =>
      obtain ⟨head,tail⟩ := List.cons.inj same
      refine .cons (each d mem_cons_self e mem_cons_self head) (ih tail ?_)
      intro d hd e he
      exact each d (mem_cons_of_mem _ hd) e (mem_cons_of_mem _ he)

def Claimant.Like (like : Declaration → Declaration → Prop) (a b : Claimant σ) : Prop :=
  a.weight = b.weight ∧ like a.declaration b.declaration

section
variable {like : Declaration → Declaration → Prop}

omit [LinearOrder σ] in
theorem likeEven (a b : Claimant σ) (h : Claimant.Like like a b) : a.weight = b.weight := h.1

omit [LinearOrder σ] in
theorem likeRefl (refl : ∀ d, like d d) (a : Claimant σ) : Claimant.Like like a a := ⟨rfl,refl _⟩

omit [LinearOrder σ] in
theorem likeTrans (trans : ∀ d e f, like d e → like e f → like d f) (a b c : Claimant σ)
    (left : Claimant.Like like a b) (right : Claimant.Like like b c) : Claimant.Like like a c :=
  ⟨left.1.trans right.1,trans _ _ _ left.2 right.2⟩

omit [LinearOrder σ] in
theorem declarationRel {a b : Option (Claimant σ)} (h : Option.Rel (Claimant.Like like) a b) :
    Option.Rel like (a.map Claimant.declaration) (b.map Claimant.declaration) := by
  cases h with
  | none => exact .none
  | some alike => exact .some alike.2

theorem claimsLike {rank : WithBot σ}
    (alike : List.Forall₂ (fun d e => d.isImportant = e.isImportant ∧ like d e) ds es) :
    List.Forall₂ (Claimant.Like like) (claims rank ds) (claims rank es) := by
  unfold claims
  split
  · exact .nil
  rw [List.forall₂_map_left_iff,List.forall₂_map_right_iff]
  refine alike.imp ?_
  intro d e h
  exact ⟨by rw [weight,weight,h.1],h.2⟩

theorem claimsShared (refl : ∀ d, like d d) {a b : WithBot σ}
    (alike : List.Forall₂ (fun d e => d.isImportant = e.isImportant ∧ like d e) es ds) :
    Option.Rel (Claimant.Like like) (strongest weight (claims a ds ++ claims b es))
      (strongest weight (claims (max a b) ds)) := by
  rcases le_or_gt a b with le | less
  · -- Each of the first is followed by one of the second that is at least as weighty.
    rw [max_eq_right le]
    have later : ∀ c ∈ claims a ds, ∃ c' ∈ claims b es, c.weight ≤ c'.weight := by
      intro c mem
      obtain ⟨full,d,hd,rfl⟩ := claimsMem.mp mem
      obtain ⟨e,he,same⟩ := forallMem alike.flip hd
      have seen : b ≠ ⊥ := fun bot => full (le_bot_iff.mp (bot ▸ le))
      exact ⟨⟨e.isImportant,b,e⟩,claimsMem.mpr ⟨seen,e,he,rfl⟩,weightLe same.1.ge le⟩
    rw [thinnedStrongest (thinnedAppend (thinnedRefl _) later)]
    exact strongestRel likeEven (claimsLike alike)
  · -- Each of the second is outranked by one of the first.
    rw [max_eq_left less.le,strongestAppend]
    have keeps : prevail weight (strongest weight (claims a ds))
        (strongest weight (claims b es)) = strongest weight (claims a ds) := by
      cases hs : strongest weight (claims b es) with
      | none => simp
      | some c =>
        obtain ⟨_,e,he,rfl⟩ := claimsMem.mp (strongestMem hs)
        obtain ⟨d,hd,same⟩ := forallMem alike he
        have there : (⟨d.isImportant,a,d⟩ : Claimant σ) ∈ claims a ds :=
          claimsMem.mpr ⟨(bot_le.trans_lt less).ne',d,hd,rfl⟩
        obtain ⟨t,ht,top⟩ := strongestOfMem weight there
        rw [ht]
        exact prevailEarlier ((weightLt same.1 less).trans_le top)
    rw [keeps]
    exact relRefl (likeRefl refl) _

end

/- A selector that optimizing leaves as it is, and that takes no other out of its list. -/
structure Settled (ctx : Context) (s : Component) : Prop where
  single : s.isList = false
  rests : s.Rests ctx
  narrow : ctx.aggressive = true → s.text ≠ universal

theorem absorbUniversalNone (narrow : ∀ s ∈ ss, s.text ≠ universal) : absorbUniversal ss = ss := by
  have absent : ss.find? (fun s => s.text == universal) = none :=
    find?_eq_none.mpr fun s mem => by simpa using narrow s mem
  rw [absorbUniversal,absent]
  split <;> rfl

theorem arrangeNarrow {aggressive} (narrow : aggressive = true → ∀ s ∈ ss, s.text ≠ universal) :
    arrangeSelectors aggressive ss = distinctBy Component.text (sortSelectors ss) := by
  rw [arrangeSelectors]
  split
  · rename_i thorough
    apply absorbUniversalNone
    intro s mem
    have old := (distinctFromSublist _ _).subset mem
    exact narrow thorough s (mem_mergeSort.mp old)
  · rfl

theorem selectorsSingle {s : Component} (single : s.isList = false) : s.selectors = [s] := by
  cases s with
  | list ss => cases single
  | _ => rfl

theorem singleTexts {r : Ruleset} (single : r.selector.isList = false) : r.texts = [r.selector.text] := by
  rw [Ruleset.texts,Ruleset.selectors,selectorsSingle single]
  rfl

theorem selectorsOfSelectors (single : ∀ s ∈ ss, s.isList = false) : (ofSelectors ss).selectors = ss := by
  rw [Component.ofSelectors.eq_def]
  split
  · exact selectorsSingle (single _ mem_cons_self)
  · rfl

def Spared (ctx : Context) (s : Component) : Prop := ctx.keepHacks = true ∨ isHtmlHack s.text = false

theorem leftSpared {ctx} (spared : ∀ s ∈ ss, Spared ctx s) :
    leftSelectors ctx ss = arrangeSelectors ctx.aggressive ss := by
  rw [leftSelectors]
  split
  · rfl
  rename_i drops
  rw [filter_eq_self.mpr]
  intro s mem
  simp [(spared s mem).resolve_left drops]

theorem listSettled {ctx} (spared : ∀ s ∈ ss, Spared ctx s) (settled : ∀ s ∈ ss, Settled ctx s) :
    ((list ss).again ctx).selectors = distinctBy Component.text (sortSelectors ss) := by
  rw [Component.again,listOutcome,survivorsRest fun s mem => (settled s mem).rests,leftSpared spared,
    arrangeNarrow fun thorough s mem => (settled s mem).narrow thorough]
  split
  · rename_i empty
    -- Nothing is left only of nothing.
    have bare := distinctNil empty
    rw [sortSelectors,← length_eq_zero_iff,length_mergeSort,length_eq_zero_iff] at bare
    rw [empty,bare]
    rfl
  · apply selectorsOfSelectors
    intro s mem
    exact (settled s (mem_mergeSort.mp ((distinctFromSublist _ _).subset mem))).single

theorem mergeableBody {a b : Ruleset} (h : a.isMergeable b) : a.body = b.body := by
  rw [Ruleset.isMergeable,Bool.and_eq_true,Bool.and_eq_true] at h
  exact beq_iff_eq.mp h.1.1

section
variable {ctx : Context} {a b : Ruleset}

theorem unionContent : (a.union ctx b).value.content = a.content := rfl

theorem unionAgain : (a.union ctx b).value.selectors =
    ((list (a.selectors ++ b.selectors)).again ctx).selectors := rfl

section
variable (spared : ∀ s ∈ a.selectors ++ b.selectors, Spared ctx s)
  (settled : ∀ s ∈ a.selectors ++ b.selectors, Settled ctx s)
include spared settled

theorem unionSelectors : (a.union ctx b).value.selectors =
    distinctBy Component.text (sortSelectors (a.selectors ++ b.selectors)) := by
  rw [unionAgain,listSettled spared settled]

theorem unionFrom {s} (mem : s ∈ (a.union ctx b).value.selectors) : s ∈ a.selectors ++ b.selectors := by
  rw [unionSelectors spared settled] at mem
  exact mem_mergeSort.mp ((distinctFromSublist _ _).subset mem)

theorem unionTexts (text) : text ∈ (a.union ctx b).value.texts ↔ text ∈ a.texts ++ b.texts := by
  rw [Ruleset.texts,Ruleset.texts,Ruleset.texts,← map_append,mem_map,mem_map]
  constructor
  · rintro ⟨s,mem,rfl⟩
    exact ⟨s,unionFrom spared settled mem,rfl⟩
  · rintro ⟨s,mem,rfl⟩
    have sorted : s ∈ sortSelectors (a.selectors ++ b.selectors) := mem_mergeSort.mpr mem
    rcases distinctFromCovers Component.text [] sorted with known | ⟨t,stays,found⟩
    · cases known
    · refine ⟨t,?_,found⟩
      rw [unionSelectors spared settled]
      exact stays

end

structure Made (pool : Component → Prop) (block : List Declaration → Prop) (r : Ruleset) : Prop where
  selectors : ∀ s ∈ r.selectors, pool s
  content : block r.content

variable {pool : Component → Prop} {block : List Declaration → Prop}

section
variable (spared : ∀ s, pool s → Spared ctx s) (settled : ∀ s, pool s → Settled ctx s)
  (left : Made pool block a) (right : Made pool block b)
include left right

theorem madeBoth : ∀ s ∈ a.selectors ++ b.selectors, pool s := by
  intro s mem
  exact (mem_append.mp mem).elim (left.selectors s) (right.selectors s)

include settled

theorem madeSettled : ∀ s ∈ a.selectors ++ b.selectors, Settled ctx s := fun s mem =>
  settled s (madeBoth left right s mem)

omit settled in
include spared in
theorem madeSpared : ∀ s ∈ a.selectors ++ b.selectors, Spared ctx s := fun s mem =>
  spared s (madeBoth left right s mem)

include spared

theorem madeTexts (text) : text ∈ (a.union ctx b).value.texts ↔ text ∈ a.texts ++ b.texts :=
  unionTexts (madeSpared spared left right) (madeSettled settled left right) text

theorem madeUnion : Made pool block (a.union ctx b).value :=
  ⟨fun s mem => madeBoth left right s (unionFrom (madeSpared spared left right)
    (madeSettled settled left right) mem),left.content⟩

theorem claimantsUnion {like} (refl : ∀ d, like d d) (v : Sight σ)
    (alike : List.Forall₂ (fun d e => d.isImportant = e.isImportant ∧ v.admits d = v.admits e ∧ like d e)
      b.content a.content) :
    Option.Rel (Claimant.Like like)
      (strongest weight (v.claimants a ++ v.claimants b))
      (strongest weight (v.claimants (a.union ctx b).value)) := by
  have admitted : List.Forall₂ (fun d e => d.isImportant = e.isImportant ∧ like d e)
      (b.content.filter v.admits) (a.content.filter v.admits) := by
    refine (rel_filter ?_ alike).imp fun d e h => ⟨h.1,h.2.2⟩
    intro d e h
    exact iff_of_eq (congrArg (· = true) h.2.1)
  rw [Sight.claimants,Sight.claimants,Sight.claimants,unionContent,
    highestCongr (unionTexts (madeSpared spared left right) (madeSettled settled left right)),highestAppend]
  exact claimsShared refl admitted

end

end

def typeSelector (name : String) : Component := .element (ascii name) [] false

theorem typeRests (ctx name) (small : lower (ascii name) = ascii name) : (typeSelector name).Rests ctx := by
  rw [Component.Rests,typeSelector,Component.optimize,Noted.valuePure,small]
  rfl

end Cascade
