import ShaderLink.Proofs.EmptyLines
import ShaderLink.Proofs.Reaching
import ShaderLink.Proofs.Sorting

/-!
# Linking

The declarations of a linked text are those that the shader needs, each of them once; with each
declaration all overloads of everything it refers to are among them; and what a declaration refers
to stands before it, but for mutual recursion in one module, where the earlier one comes first
(`Store.Linked`).  The text consists of what is left of the code and of these declarations in order
(`Store.LinkedTo`).  This is what holds whenever a shader is linked in a sound store, if its libraries
have different names and none has that of shaders: `ends_link`.
-/

namespace ShaderLink

open LinkM Store

namespace Store

/-- The declarations are those that the module needs, each of them once, and all that is declared
under the names to which they refer. -/
structure Closed (s : Store) (m : Module) (out : List Declaration) : Prop where
  distinct : (out.map (·.serial)).Nodup
  needed : ∀ d, d ∈ out ↔ s.Needed m d
  declared : ∀ e ∈ out, ∀ r ∈ e.references, ∃ c, s.Offers m r.path r.name c
  complete : ∀ e ∈ out, ∀ r ∈ e.references, ∀ c, s.Offers m r.path r.name c → c ∈ out

/-- The declarations are closed, and each of them stands after those with other keys to which it
refers, but for those of its module that are declared later and use it in return. -/
structure Linked (s : Store) (m : Module) (out : List Declaration) : Prop
    extends Closed s m out where
  ordered : ∀ e ∈ out, ∀ r ∈ e.references, ∀ c, s.Offers m r.path r.name c → c.key ≠ e.key →
    ¬ (c.uses e.id ∧ c.path = e.path ∧ e.index < c.index) → [c, e].Sublist out

variable {s : Store} {i : ModuleId}

theorem Closed.of_perm {m : Module} {out out' : List Declaration} (h : Closed s m out)
    (hperm : out'.Perm out) : Closed s m out' where
  distinct := (hperm.map _).nodup_iff.2 h.distinct
  needed d := hperm.mem_iff.trans (h.needed d)
  declared e he := h.declared e (hperm.mem_iff.1 he)
  complete e he r hr c hc := hperm.mem_iff.2 (h.complete e (hperm.mem_iff.1 he) r hr c hc)

/-- What is offered for a reference has its id. -/
theorem Offers.id_eq (hs : s.Sound) {path name : Text} {c : Declaration}
    (h : s.Offers (s.module i) path name c) : c.id = idOf path name := by
  unfold Declaration.id
  rcases h with ⟨rfl, hc, rfl⟩ | ⟨id, -, hname, j, hj, hc, rfl⟩
  · rw [(hs.numbered i).path_eq c hc]
  · have hne : path ≠ [] := by
      rintro rfl
      exact (libraryOf_eq_ok_iff.1 hname).2 (libraryOf_eq_ok_iff.1 hname).1.symm
    rw [(hs.numbered j).path_eq c hc, (hs.placed id _ (Table.mem_of_get?_eq_some hj)).2 hne]

end Store

/-! ## Gathering -/

section Gather

variable {s : Store} {i : ModuleId} {found : List Declaration} {seen : List Text}

/-- The declarations of a module, and those of the others that were found. -/
def gathered (own found : List Declaration) : List Declaration :=
  own ++ found.filter fun d => !own.any (·.serial == d.serial)

namespace Search.Faithful

variable (hs : s.Sound) (h : Faithful s (s.module i) ⟨found, seen, []⟩)
include hs h

theorem mem_gathered {d : Declaration} :
    d ∈ gathered (s.module i).declarations found ↔ d ∈ (s.module i).declarations ∨ d ∈ found := by
  unfold gathered
  rw [List.mem_append, List.mem_filter]
  constructor
  · exact fun hd => hd.imp_right And.left
  · rintro (hd | hd)
    · exact Or.inl hd
    · by_cases hown : (s.module i).declarations.any (·.serial == d.serial) = true
      · obtain ⟨e, he, hserial⟩ := List.any_eq_true.1 hown
        obtain ⟨j, hj⟩ := (h.found d hd).exists_module
        exact Or.inl (hs.eq_of_serial he hj (beq_iff_eq.1 hserial) ▸ he)
      · exact Or.inr ⟨hd, by simpa using hown⟩

theorem nodup_gathered : ((gathered (s.module i).declarations found).map (·.serial)).Nodup := by
  unfold gathered
  rw [List.map_append, List.nodup_append]
  refine ⟨(hs.numbered i).distinct, h.distinct.sublist (List.filter_sublist.map _), ?_⟩
  intro n hn k hk hnk
  obtain ⟨e, he, rfl⟩ := List.mem_map.1 hn
  obtain ⟨d, hd, rfl⟩ := List.mem_map.1 hk
  have hnew := (List.mem_filter.1 hd).2
  rw [Bool.not_eq_true', List.any_eq_false] at hnew
  exact hnew e he (beq_iff_eq.2 hnk)

/-- A reference of what was gathered has been followed: it leads to the module itself, or into a
library. -/
theorem reference_cases (ho : s.Outside (s.module i).path) {e : Declaration}
    (he : e ∈ (s.module i).declarations ∨ e ∈ found) {r : Reference} (hr : r ∈ e.references) :
    (r.path = (s.module i).path ∧ ∃ d ∈ (s.module i).declarations, d.name = r.name) ∨
      r.path ≠ (s.module i).path ∧ Search.Reached s found r.path r.name := by
  have hname : IsSegment r.name := by
    have hneeded : s.Needed (s.module i) e := he.elim .own (h.found e)
    obtain ⟨j, hj⟩ := hneeded.exists_module
    exact (hs.numbered j).references e hj r hr
  rcases h.followed e he r hr with hid | ⟨p, hp, -⟩
  · rcases h.reached r.id hid with ⟨d, hd, hid⟩ | ⟨path, name, hsegment, hid, hreached⟩
    · obtain ⟨hpath, hdname⟩ := idOf_inj ((hs.numbered i).name d hd) hname hid
      rw [(hs.numbered i).path_eq d hd] at hpath
      exact Or.inl ⟨hpath.symm, d, hd, hdname⟩
    · obtain ⟨rfl, rfl⟩ := idOf_inj hname hsegment hid
      refine Or.inr ⟨fun hpath => ?_, hreached⟩
      obtain ⟨c, hc⟩ := hreached.declared
      rw [hpath] at hc
      exact ho.not_declares hc
  · cases hp

theorem closed (ho : s.Outside (s.module i).path) :
    s.Closed (s.module i) (gathered (s.module i).declarations found) := by
  have hcomplete : ∀ e ∈ gathered (s.module i).declarations found, ∀ r ∈ e.references, ∀ c,
      s.Offers (s.module i) r.path r.name c → c ∈ gathered (s.module i).declarations found := by
    intro e he r hr c hc
    rw [h.mem_gathered hs] at he ⊢
    rcases hc with ⟨-, hc, -⟩ | hc
    · exact Or.inl hc
    · rcases h.reference_cases hs ho he hr with ⟨hpath, -⟩ | ⟨-, hreached⟩
      · rw [hpath] at hc
        exact absurd hc ho.not_declares
      · exact Or.inr (hreached.found c hc)
  refine ⟨h.nodup_gathered hs, fun d => ⟨fun hd => ?_, fun hd => ?_⟩, fun e he r hr => ?_,
    hcomplete⟩
  · exact ((h.mem_gathered hs).1 hd).elim .own (h.found d)
  · induction hd with
    | own hd => exact (h.mem_gathered hs).2 (Or.inl hd)
    | used _ hr hc ih => exact hcomplete _ ih _ hr _ hc
  · rcases h.reference_cases hs ho ((h.mem_gathered hs).1 he) hr with
      ⟨hpath, d, hd, hname⟩ | ⟨-, hr⟩
    · exact ⟨d, Or.inl ⟨hpath, hd, hname⟩⟩
    · obtain ⟨c, hc⟩ := hr.declared
      exact ⟨c, Or.inr hc⟩

end Search.Faithful

theorem ends_gather (hs : s.Sound) (i : ModuleId) :
    Ends (fun ds s' => Advances True s.IsCompiled s s' ∧ (s.Unambiguous →
      s.Outside (s.module i).path → s'.Closed (s'.module i) ds)) Sound (gather i s) := by
  unfold gather
  apply ends_bind.2
  apply ends_get.2
  apply ends_bind.2
  by_cases h : s.Unambiguous ∧ s.Outside (s.module i).path
  · obtain ⟨hu, ho⟩ := h
    refine (ends_reach hs hu ho).imp fun found s' => ?_
    rintro ⟨hs', seen, hfaithful⟩
    have hkeeps := hs'.2 trivial
    refine ⟨hs', fun _ _ => hfaithful.closed hs'.1 ?_⟩
    rw [hkeeps.module_outside ho]
    exact ho.keeps hkeeps
  · refine (ends_reachWith compiles_compile (hs.librariesOf (hs.plain i)) _ hs).imp
      fun found s' hs' => ?_
    exact ⟨hs', fun hu ho => absurd ⟨hu, ho⟩ h⟩

end Gather

/-! ## Ordering -/

section Order

variable {s : Store} {i : ModuleId} {ds out : List Declaration}

theorem sublist_of_get_lt {α : Type} {l : List α} {i j : Fin l.length} (h : i < j) :
    [l.get i, l.get j].Sublist l := by
  have hpairs : l.Pairwise fun a b => [a, b].Sublist l :=
    List.pairwise_iff_forall_sublist.2 fun h => h
  exact List.pairwise_iff_get.1 hpairs i j h

/-- What a declaration uses stands before it, but for what uses it in return and is declared later in
the same module. -/
theorem Precedence.sublist_of_uses {c e : Declaration} (hout : Precedence.sort ds = .ok out)
    (he : e ∈ ds) (hc : c ∈ ds) (huses : e.uses c.id) (hkey : c.key ≠ e.key)
    (hlater : ¬ (c.uses e.id ∧ c.path = e.path ∧ e.index < c.index)) : [c, e].Sublist out := by
  have hclash := (Precedence.sort_eq_ok_iff.1 ⟨out, hout⟩).1
  have harranged := Precedence.arranged_of_sort_eq_ok hout
  have hfollows : Precedence.Follows e c := by
    refine ⟨huses, hkey.symm, fun hback => hlater ⟨hback.1, ?_, hback.2⟩⟩
    -- two that use each other stand in one module, as they would clash otherwise
    by_contra hpath
    exact hclash ⟨e, he, c, hc, huses, hback.1, hkey.symm, Ne.symm hpath⟩
  obtain ⟨j, rfl⟩ := List.get_of_mem (harranged.perm.mem_iff.2 he)
  obtain ⟨k, rfl⟩ := List.get_of_mem (harranged.perm.mem_iff.2 hc)
  exact sublist_of_get_lt (harranged.ordered j k ⟨_, he, _, hc, rfl, rfl, hfollows⟩)

theorem Store.Closed.linked (hs : s.Sound) (h : s.Closed (s.module i) ds)
    (hout : Precedence.sort ds = .ok out) : s.Linked (s.module i) out := by
  have hperm := (Precedence.arranged_of_sort_eq_ok hout).perm
  refine ⟨h.of_perm hperm, fun e he r hr c hc hkey hlater => ?_⟩
  have he' := hperm.mem_iff.1 he
  exact Precedence.sublist_of_uses hout he' (h.complete e he' r hr c hc)
    (Precedence.uses_iff.2 ⟨r, hr, (hc.id_eq hs).symm⟩) hkey hlater

end Order

/-! ## The linked text -/

/-- What is linked for a shader: its module, with its declarations and all that they need. -/
def Registry.collect (code : Text) : LinkM (ModuleId × List Declaration) := do
  let i ← Registry.makeShader code
  return (i, ← gather i)

/-- A module was linked to a text: it has what is read in the code, and the text consists of what is
left of that and of all that the module needs, in order and under names of their own. -/
structure Store.LinkedTo (s : Store) (i : ModuleId) (code : Text) (o : Outline)
    (ds ordered : List Declaration) (t : Text) : Prop where
  path : (s.module i).path = Registry.shaderPath
  source : (s.module i).source = code
  readAs : (s.module i).ReadAs o
  arranged : Precedence.Arranged ds ordered
  emits : Emits t o.code (Renaming.ofDeclarations ds) ordered
  linked : s.Linked (s.module i) ordered

section Link

variable {s s' : Store} {m : Module} {out : List Declaration}

theorem Store.Quiet.offers (h : Quiet s s') : s'.Offers = s.Offers := by
  funext m path name c
  unfold Offers Declares
  rw [h.libraries, h.library, h.module]

theorem Store.Needed.of_offers (h : s'.Offers = s.Offers) {d : Declaration} (hd : s.Needed m d) :
    s'.Needed m d := by
  induction hd with
  | own hd => exact .own hd
  | used _ hr hc ih => exact .used ih hr (h ▸ hc)

theorem Store.Closed.of_quiet (h : Quiet s s') (hc : s.Closed m out) : s'.Closed m out where
  distinct := hc.distinct
  needed d := (hc.needed d).trans ⟨.of_offers h.offers, .of_offers h.offers.symm⟩
  declared := h.offers ▸ hc.declared
  complete := h.offers ▸ hc.complete

theorem ends_linkModule (hs : s.Sound) (i : ModuleId) :
    Ends (fun t s' => Advances True s.IsCompiled s s' ∧ (s.Unambiguous →
      s.Outside (s.module i).path → ∃ ds s₁ ordered, gather i s = (.ok ds, s₁) ∧
        Precedence.sort ds = .ok ordered ∧
          t = linkedText (s'.module i).remainder (Renaming.ofDeclarations ds) ordered ∧
            s'.Linked (s'.module i) ordered)) Sound (linkModule i s) := by
  refine ends_linkModule_of_gather ((ends_gather hs i).with_eq.imp fun ds s₁ => ?_)
  rintro ⟨⟨h₁, hclosed⟩, hgather⟩ s₂ hcalled
  have hquiet := hcalled.toQuiet
  have hs₂ := h₁.trans (hquiet.advances h₁.1)
  refine ⟨fun text htext => ⟨hs₂, fun hu ho => ?_⟩, fun _ _ => hs₂.1⟩
  obtain ⟨ordered, hordered, rfl⟩ := linkedWith_eq_ok_iff.1 htext
  rw [← hquiet.module]
  refine ⟨ds, s₁, ordered, hgather, hordered, rfl, ?_⟩
  have hclosed₂ := (hclosed hu ho).of_quiet hquiet
  rw [← hquiet.module] at hclosed₂
  exact hclosed₂.linked hs₂.1 hordered

/-- A shader is a module outside of all libraries, if none has the name of shaders. -/
theorem ends_makeShader (hs : s.Sound) (code : Text) :
    Ends (fun i s' => s'.Sound ∧ (s.Unambiguous → s'.Unambiguous) ∧
      (s.Outside Registry.shaderPath → s'.Outside Registry.shaderPath ∧
        (s'.module i).path = Registry.shaderPath ∧ (s'.module i).source = code ∧
          ∃ o, (s'.module i).ReadAs o)) Sound (Registry.makeShader code s) := by
  unfold Registry.makeShader
  apply ends_bind.2
  apply ends_bind.2
  apply ends_get.2
  apply ends_bind.2
  apply ends_set.2
  apply ends_pure.2
  have hfresh := quiet_fresh s
  have hscope : Plain { s with nextSerial := s.nextSerial + 1 }
      { serial := s.nextSerial, owner := .registry } := by
    intro libraries plugins howner
    cases howner
  refine ((ends_makeModule (P := True) (C := fun _ => False) (hs.of_quiet hfresh) hscope).and
    (ends_makeModule_calls _ _ _ _)).mono (fun i s₁ => ?_) (fun _ h => h.1) |> ends_bind.2
  rintro ⟨⟨h₁, -, hi, hpath, hsource, -⟩, hnew, calls, s₂, m, hcalled, hpush, -, -, -, hread⟩
  obtain ⟨o, ⟨hcode, hds, himports, hexports, hremainder⟩⟩ : ∃ o, (s₁.module i).ReadAs o := by
    rw [hpush, module_push, if_pos (by rw [hnew, hcalled.modules])]
    have hplugins : s.registry.plugins = [] := hs.registryPlugins
    simp only [pluginsOf, hplugins] at hread
    exact hread.exists_readAs
  refine (ends_applyPluginsWith compiles_compile h₁.1).bind fun _ s₃ => ?_
  rintro ⟨hs₃, s₄, seen, h₄, rfl⟩
  have hkeeps₁ : Keeps (fun _ => False) s s₁ := (Keeps.of_quiet hfresh).trans (h₁.2 trivial)
  have hkeeps₄ := h₄.2 trivial
  refine ⟨hs₃, fun hu j => ?_, fun ho => ⟨fun id => ?_, ?_⟩⟩
  · exact (hu.keeps hkeeps₁).keeps hkeeps₄ j
  · exact (ho.keeps hkeeps₁).keeps hkeeps₄ id
  · have hmodule : s₄.module i = s₁.module i := by
      apply hkeeps₄.module_outside
      rw [hpath]
      exact ho.keeps hkeeps₁
    rw [module_modify, hmodule]
    split <;> exact ⟨hpath, hsource, o, hcode, hds, himports, hexports, hremainder⟩

theorem ends_link (hs : s.Sound) (code : Text) :
    Ends (fun t s' => s'.Sound ∧ (s.Unambiguous → s.Outside Registry.shaderPath →
      ∃ i ds s₁ ordered o, Registry.collect code s = (.ok (i, ds), s₁) ∧
        Precedence.sort ds = .ok ordered ∧ s'.LinkedTo i code o ds ordered t)) Sound
      (Registry.link code s) := by
  unfold Registry.link
  refine (ends_makeShader hs code).with_eq.bind fun i s₁ => ?_
  rintro ⟨⟨hs₁, hunambiguous, hshader⟩, hmake⟩
  refine (ends_linkModule hs₁ i).imp fun t s₂ => ?_
  rintro ⟨h₂, hlinked⟩
  refine ⟨h₂.1, fun hu ho => ?_⟩
  obtain ⟨ho₁, hpath, hsource, o, hread⟩ := hshader ho
  have hout : s₁.Outside (s₁.module i).path := hpath.symm ▸ ho₁
  obtain ⟨ds, s₃, ordered, hgather, hsort, ht, hordered⟩ := hlinked (hunambiguous hu) hout
  have hmodule : s₂.module i = s₁.module i := (h₂.2 trivial).module_outside hout
  have hcollect : Registry.collect code s = (.ok (i, ds), s₃) := by
    rw [Registry.collect, bind_apply, hmake]
    show (gather i >>= fun ds => pure (i, ds)) s₁ = _
    rw [bind_apply, hgather]
    rfl
  refine ⟨i, ds, s₃, ordered, o, hcollect, hsort, ?_, ?_, ?_,
    Precedence.arranged_of_sort_eq_ok hsort, ?_, hordered⟩
  · rw [hmodule, hpath]
  · rw [hmodule, hsource]
  · rwa [hmodule]
  · rw [ht, hmodule, hread.remainder]
    exact emits_linkedText _ _ _

end Link

end ShaderLink
