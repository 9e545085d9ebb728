import ComponentMarkup.Proofs.Json.RoundTrip
import ComponentMarkup.Proofs.Value.Literals
import ComponentMarkup.Settings.Reading

/-!
# Settings survive their text

Settings are read back from their JSON text, and answer every question about a tag or an attribute as
before (`Settings.survive_text`). The tags of a table stand in any order there.
-/

namespace ComponentMarkup

/-! ## Tables -/

namespace Provider

/-- A table has one constructor for a tag. -/
def Distinct : Provider → Prop
  | .table tags => (tags.map Prod.fst).Nodup
  | _ => True

/-- Providers that are the same, but for the order of the tags in a table. -/
inductive Alike : Provider → Provider → Prop where
  | refl (p : Provider) : Alike p p
  | table {tags tags' : ConstructorTable} : tags.Perm tags' → Alike (.table tags) (.table tags')

variable {p q : Provider}

theorem Alike.distinct (h : Alike p q) (hp : p.Distinct) : q.Distinct := by
  cases h with
  | refl => exact hp
  | table hperm => exact (hperm.map _).nodup_iff.mp hp

theorem lookup_eq_of_perm {tags tags' : ConstructorTable} (h : tags.Perm tags')
    (hnodup : (tags.map Prod.fst).Nodup) (tag : String) : tags.lookup tag = tags'.lookup tag := by
  induction h with
  | nil => rfl
  | cons entry _ ih =>
    rw [List.map_cons, List.nodup_cons] at hnodup
    rw [List.lookup_cons, List.lookup_cons, ih hnodup.2]
  | swap a b tags =>
    have hne : b.1 ≠ a.1 := fun heq => by simp [heq] at hnodup
    rw [List.lookup_cons, List.lookup_cons, List.lookup_cons, List.lookup_cons]
    by_cases ha : tag = a.1
    · rw [beq_false_of_ne fun hb : tag = b.1 => hne (hb.symm.trans ha)]
    · rw [beq_false_of_ne ha]
  | trans h _ ih ih' => rw [ih hnodup, ih' ((h.map _).nodup_iff.mp hnodup)]

theorem Alike.resolve? (h : Alike p q) (hp : p.Distinct) (tag : String) :
    p.resolve? tag = q.resolve? tag := by
  cases h with
  | refl => rfl
  | table hperm => exact lookup_eq_of_perm hperm hp tag

theorem forall₂_alike {ps qs : List Provider} (h : List.Forall₂ Alike ps qs) (hps : ∀ p ∈ ps, p.Distinct) :
    (∀ q ∈ qs, q.Distinct) ∧
      ∀ tag, qs.findSome? (·.resolve? tag) = ps.findSome? (·.resolve? tag) := by
  induction h with
  | nil => exact ⟨hps, fun _ => rfl⟩
  | cons hpq _ ih =>
    obtain ⟨hp, hps⟩ := List.forall_mem_cons.mp hps
    obtain ⟨hqs, hresolve⟩ := ih hps
    refine ⟨List.forall_mem_cons.mpr ⟨hpq.distinct hp, hqs⟩, fun tag => ?_⟩
    rw [List.findSome?_cons, List.findSome?_cons, hpq.resolve? hp, hresolve]

end Provider

/-! ## Vocabularies -/

theorem ProviderChain.resolve?_ofProviders (providers : List Provider) (n : Identity) (tag : String) :
    ((ofProviders providers).run n).1.resolve? tag = providers.findSome? (·.resolve? tag) := by
  have hfold : ∀ (chain : ProviderChain) (n : Identity),
      ((providers.foldlM (fun chain p => chain.push p.resolve?) chain : Fresh _).run n).1.providers =
        chain.providers ++ providers.map Provider.resolve? := by
    induction providers with
    | nil => exact fun chain _ => (List.append_nil chain.providers).symm
    | cons p providers ih =>
      intro chain n
      refine (ih ⟨n, chain.providers ++ [p.resolve?]⟩ (n + 1)).trans ?_
      rw [List.append_assoc, List.map_cons, List.singleton_append]
  rw [ProviderChain.resolve?]
  refine (congrArg _ (hfold ⟨n, []⟩ (n + 1))).trans ?_
  rw [List.nil_append, List.findSome?_map]
  rfl

theorem ArgumentNames.entries_ofPairs (pairs : List (String × String)) (n : Identity) :
    ((ofPairs pairs).run n).1.entries = Entries.ofPairs pairs := by
  have hfold : ∀ (names : ArgumentNames) (n : Identity),
      ((pairs.foldlM (fun names (pair : String × String) => names.insert pair.1 pair.2) names :
        Fresh _).run n).1.entries = Entries.insertAll names.entries pairs := by
    induction pairs with
    | nil => exact fun _ _ => rfl
    | cons pair pairs ih => exact fun names n => ih ⟨n, _⟩ (n + 1)
  exact hfold ⟨n, []⟩ (n + 1)

namespace Settings

/-- The members of an object have different names. -/
structure Distinct (s : Settings) : Prop where
  tables : ∀ p ∈ s.providers, p.Distinct
  attributes : (s.attributes.map Prod.fst).Nodup

/-- Settings that are the same, but for the order of the tags in tables. -/
structure Alike (s t : Settings) : Prop where
  providers : List.Forall₂ Provider.Alike s.providers t.providers
  attributes : t.attributes = s.attributes
  defaultAttributes : t.defaultAttributes = s.defaultAttributes

/-! ## Reading -/

theorem mapM_map {α β ε : Type} {f : β → Except ε α} {g : α → β} {items : List α}
    (h : ∀ x ∈ items, f (g x) = .ok x) : (items.map g).mapM f = .ok items := by
  induction items with
  | nil => rfl
  | cons x items ih =>
    obtain ⟨hx, hitems⟩ := List.forall_mem_cons.mp h
    rw [List.map_cons, List.mapM_cons, hx, ih hitems]
    rfl

theorem pathOf_pathToJson (path : ConstructorPath) : pathOf (pathToJson path) = .ok path := by
  obtain ⟨owner, name⟩ := path
  cases owner <;> rfl

theorem setAside_table {members : List (String × Json)} (h : ∀ m ∈ members, ∃ path, m.2 = pathToJson path) :
    setAside (.ofJson (.obj members)) = .ok (.obj members) := by
  have hmembers : Draft.membersToJson? (Draft.ofMembers members) = some members ∧
      membersNesting members ≤ 1 := by
    induction members with
    | nil => exact ⟨rfl, Nat.zero_le _⟩
    | cons m members ih =>
      obtain ⟨⟨⟨owner, name⟩, hm⟩, hmembers⟩ := List.forall_mem_cons.mp h
      obtain ⟨hwhole, hnesting⟩ := ih hmembers
      have hpath : (Draft.ofJson m.2).toJson? = some m.2 ∧ nesting m.2 = 1 := by
        rw [hm]
        cases owner <;> exact ⟨rfl, rfl⟩
      simp [Draft.ofMembers, Draft.membersToJson?, membersNesting, hwhole, hpath, hnesting]
  have hnesting : nesting (.obj members) ≤ maxNesting := by
    rw [nesting, maxNesting]
    omega
  rw [setAside, Draft.ofJson, Draft.toJson?, hmembers.1]
  exact if_pos hnesting

theorem readProvider_providerToJson (hp : p.Distinct) :
    readProvider (.ofJson (providerToJson p)) = .ok p := by
  cases p with
  | html m => rfl
  | core m => rfl
  | dataTable m => rfl
  | bootstrap m => rfl
  | titleCase owner => cases owner <;> rfl
  | table tags =>
    have hset : setAside (.ofJson (providerField (.table tags)).2) = .ok (providerField (.table tags)).2 := by
      refine setAside_table fun m hm => ?_
      obtain ⟨entry, -, rfl⟩ := List.mem_map.mp hm
      exact ⟨entry.2, rfl⟩
    have htags : tagsOf (providerField (.table tags)).2 = .ok tags := by
      have hpaths : (tags.map fun e => (e.1, pathToJson e.2)).mapM
          (fun m => do return (m.1, ← pathOf m.2)) = .ok tags :=
        mapM_map fun e _ => by rw [pathOf_pathToJson]; rfl
      exact (congrArg (Except.map Entries.ofPairs) hpaths).trans
        (congrArg Except.ok (Entries.ofPairs_of_nodup hp))
    change ((setAside (.ofJson (providerField (.table tags)).2) >>= fun json =>
      .ok (.table, [("tags", json)])) >>= fun r : ProviderKind × List (String × Json) =>
        uniqueMember r.1.field r.2 >>= providerOf r.1) = _
    rw [hset]
    exact congrArg (Except.map Provider.table) htags

theorem ofDraft_toJson (hs : s.Distinct) : ofDraft (.ofJson s.toJson) = .ok s := by
  have hproviders : readProviders (.ofJson (.arr (s.providers.map providerToJson))) = .ok s.providers := by
    rw [Draft.ofJson, Draft.ofItems_eq_map, List.map_map]
    exact mapM_map fun p hp => readProvider_providerToJson (hs.tables p hp)
  have hattributes : readAttributes (.ofJson (.obj (s.attributes.map fun e => (e.1, .str e.2)))) =
      .ok s.attributes := by
    rw [Draft.ofJson, Draft.ofMembers_eq_map, List.map_map]
    have hpairs : (s.attributes.map fun e => (Draft.str e.1, Draft.str e.2)).mapM
        (fun m => do return (← readString m.1, ← readString m.2)) = .ok s.attributes :=
      mapM_map fun _ _ => rfl
    exact (congrArg (Except.map Entries.ofPairs) hpairs).trans
      (congrArg Except.ok (Entries.ofPairs_of_nodup hs.attributes))
  change (readProviders _ >>= fun providers => readAttributes _ >>= fun attributes =>
    Except.ok (SettingsParts.mk (some providers) (some attributes) (some s.defaultAttributes))).map
      SettingsParts.settings = .ok s
  rw [hproviders]
  change (readAttributes _ >>= fun attributes => Except.ok (SettingsParts.mk (some s.providers)
    (some attributes) (some s.defaultAttributes))).map SettingsParts.settings = .ok s
  rw [hattributes]
  rfl

theorem toJson_isTextual (s : Settings) : s.toJson.IsTextual := by
  have hpair : ∀ {m n : String × Json}, m.2.IsTextual → n.2.IsTextual → (Json.obj [m, n]).IsTextual :=
    fun hm hn => .obj (List.forall_mem_cons.mpr ⟨hm, List.forall_mem_singleton.mpr hn⟩)
  have howner : ∀ owner, (ownerToJson owner).IsTextual := by
    rintro (_ | owner)
    · exact .null
    · exact .str owner
  have hfield : ∀ p : Provider, (providerField p).2.IsTextual := by
    intro p
    cases p with
    | titleCase owner => exact howner owner
    | table tags => exact .obj (List.forall_mem_map.mpr fun e _ => hpair (howner e.2.owner) (.str _))
    | _ => exact .str _
  refine .obj (List.forall_mem_cons.mpr ⟨?_, List.forall_mem_cons.mpr ⟨?_, ?_⟩⟩)
  · exact .arr (List.forall_mem_map.mpr fun p _ => hpair (.str _) (hfield p))
  · exact .obj (List.forall_mem_map.mpr fun _ _ => .str _)
  · exact List.forall_mem_singleton.mpr (.bool _)

theorem ofText_render (hs : s.Distinct) : ofText s.toJson.render.toList = .ok s := by
  rw [ofText, (toJson_isTextual s).read_render]
  simp only [ofDraft_toJson hs]
  rfl

/-! ## Main statement -/

variable {s written : Settings}

/-- Settings are read back from their text, in whatever order it gives the tags of a table. The
vocabularies of both resolve every tag alike and pass every attribute as the same argument. -/
theorem survive_text (hs : s.Distinct) (h : s.Alike written) :
    ofText written.toJson.render.toList = .ok written ∧ ∀ n n',
      (∀ tag, (written.vocabulary.run n').1.chain.resolve? tag = (s.vocabulary.run n).1.chain.resolve? tag) ∧
      ∀ attr default, (written.vocabulary.run n').1.arguments.getD attr default =
        (s.vocabulary.run n).1.arguments.getD attr default := by
  obtain ⟨hdistinct, hresolve⟩ := Provider.forall₂_alike h.providers hs.tables
  refine ⟨ofText_render ⟨hdistinct, h.attributes ▸ hs.attributes⟩, fun n n' => ⟨fun tag => ?_,
    fun attr default => ?_⟩⟩
  · have hchosen : written.chosenProviders.findSome? (·.resolve? tag) =
        s.chosenProviders.findSome? (·.resolve? tag) := by
      have hempty : written.providers.isEmpty = s.providers.isEmpty := by
        rw [Bool.eq_iff_iff, List.isEmpty_iff_length_eq_zero, List.isEmpty_iff_length_eq_zero,
          h.providers.length_eq]
      rw [chosenProviders, chosenProviders, hempty]
      split
      · rfl
      · exact hresolve tag
    calc (written.vocabulary.run n').1.chain.resolve? tag
      _ = written.chosenProviders.findSome? (·.resolve? tag) :=
        ProviderChain.resolve?_ofProviders written.chosenProviders n' tag
      _ = s.chosenProviders.findSome? (·.resolve? tag) := hchosen
      _ = (s.vocabulary.run n).1.chain.resolve? tag :=
        (ProviderChain.resolve?_ofProviders s.chosenProviders n tag).symm
  · have hrenames : written.renames = s.renames := by
      rw [renames, renames, h.attributes, h.defaultAttributes]
    calc (written.vocabulary.run n').1.arguments.getD attr default
      _ = ((Entries.ofPairs written.renames).lookup attr).getD default :=
        congrArg (fun e : Entries String String => (e.lookup attr).getD default)
          (ArgumentNames.entries_ofPairs written.renames _)
      _ = ((Entries.ofPairs s.renames).lookup attr).getD default := by rw [hrenames]
      _ = (s.vocabulary.run n).1.arguments.getD attr default :=
        (congrArg (fun e : Entries String String => (e.lookup attr).getD default)
          (ArgumentNames.entries_ofPairs s.renames _)).symm

/-- The tags of a table change places, and strings with escapes are read back. -/
theorem survive_text_of_table :
    let s : Settings := ⟨[.table [("a", ⟨none, "A"⟩), ("\"\n", ⟨some "m", "é\x01"⟩)], .titleCase none],
      [("class", "className")], false⟩
    let written : Settings := ⟨[.table [("\"\n", ⟨some "m", "é\x01"⟩), ("a", ⟨none, "A"⟩)], .titleCase none],
      [("class", "className")], false⟩
    s.Distinct ∧ s.Alike written ∧ ofText written.toJson.render.toList = .ok written ∧
      (written.vocabulary.run 3).1.chain.resolve? "a" = (s.vocabulary.run 0).1.chain.resolve? "a" := by
  intro s written
  have hs : s.Distinct := ⟨by simp [s, Provider.Distinct], by decide⟩
  have h : s.Alike written := ⟨.cons (.table (.swap _ _ _)) (.cons (.refl _) .nil), rfl, rfl⟩
  exact ⟨hs, h, (survive_text hs h).1, ((survive_text hs h).2 0 3).1 "a"⟩

end Settings

end ComponentMarkup
