import SessionTrail.Proofs.Evolution

/-!
# Whose identity a session's properties hold

Installers and their listeners write two properties into a session, its application's name and identity, each
under a key of its own, the name first. Whichever session they write into, they write what they have read
from that same session, so what stands there already is written over by itself.
-/
namespace SessionTrail

open Program World

/-! ## Keys -/

theorem identity_names_differ (p q : String) :
    propertyKey p appNameProperty ≠ propertyKey q applicationIdProperty := by
  intro h
  -- One ends in another character than the other.
  have hl := congrArg (fun key : String => key.toList.getLast?) h
  simp [propertyKey, appNameProperty, applicationIdProperty, String.toList_append,
    List.getLast?_append] at hl

/-- Keys with different prefixes, or of different names, are different. -/
theorem propertyKey_inj {p q name name' : String} (hn : name ∈ [appNameProperty, applicationIdProperty])
    (hn' : name' ∈ [appNameProperty, applicationIdProperty])
    (h : propertyKey p name = propertyKey q name') : p = q ∧ name = name' := by
  have hname : name = name' := by
    simp only [List.mem_cons, List.not_mem_nil, or_false] at hn hn'
    rcases hn with rfl | rfl <;> rcases hn' with rfl | rfl
    · rfl
    · exact absurd h (identity_names_differ p q)
    · exact absurd h.symm (identity_names_differ q p)
    · rfl
  subst hname
  refine ⟨?_, rfl⟩
  have hl := congrArg String.toList h
  simp only [propertyKey, String.toList_append] at hl
  exact String.toList_injective (List.append_cancel_right hl)

/-! ## Sessions -/

namespace Session

variable {P Q : String → Prop} {x y : Session} {keyPrefix : String}

/-- The properties of a session hold its own name and identity and nothing else, under keys with some
of the prefixes `P`, and the name where the identity is. -/
structure Branded (P : String → Prop) (x : Session) : Prop where
  own : ∀ key value, x.properties.get? key = some value → ∃ p, P p ∧
    (key = propertyKey p appNameProperty ∧ value = x.fact .appName ∨
      key = propertyKey p applicationIdProperty ∧ value = x.fact .applicationId)
  named : ∀ p, (x.properties.get? (propertyKey p applicationIdProperty)).isSome = true →
    (x.properties.get? (propertyKey p appNameProperty)).isSome = true

/-- From `x` to `y` a session remains branded and keeps the properties that it has, and its listeners go on
to write with some of the prefixes `P`. -/
structure Brands (P : String → Prop) (x y : Session) : Prop where
  branded : x.Branded P → y.Branded P
  kept : x.Branded P → ∀ key value, x.properties.get? key = some value →
    y.properties.get? key = some value
  fits : x.Fits P → y.Fits P

theorem Branded.mono (h : x.Branded P) (hpq : ∀ p, P p → Q p) : x.Branded Q :=
  ⟨fun key value hv => (h.own key value hv).imp fun p hp => ⟨hpq p hp.1, hp.2⟩, h.named⟩

theorem branded_of_empty (hp : x.properties = .empty) : x.Branded P := by
  refine ⟨fun key value hv => ?_, fun p hs => ?_⟩
  · rw [hp] at hv
    cases hv
  · rw [hp] at hs
    cases hs

namespace Brands

theorem trans {z : Session} (h : x.Brands P y) (h' : y.Brands P z) : x.Brands P z :=
  ⟨fun hx => h'.branded (h.branded hx), fun hx key value hv =>
    h'.kept (h.branded hx) key value (h.kept hx key value hv), fun hx => h'.fits (h.fits hx)⟩

theorem of_properties_eq (hp : y.properties = x.properties) (hf : y.fact = x.fact)
    (fits : x.Fits P → y.Fits P) : x.Brands P y := by
  refine ⟨fun h => ⟨?_, ?_⟩, fun _ => ?_, fits⟩
  · rw [hp, hf]
    exact h.own
  · rw [hp]
    exact h.named
  · rw [hp]
    exact fun _ _ hv => hv

/-- The session's own name or identity is written, the identity only where the name is. -/
theorem of_insert {name : String} {f : Fact} (hp : P keyPrefix)
    (hown : name = appNameProperty ∧ f = .appName ∨ name = applicationIdProperty ∧ f = .applicationId ∧
      (x.properties.get? (propertyKey keyPrefix appNameProperty)).isSome = true)
    (hy : y.properties = x.properties.insert (propertyKey keyPrefix name) (x.fact f))
    (hf : y.fact = x.fact) (hw : y.workers = x.workers) : x.Brands P y := by
  have hname : name ∈ [appNameProperty, applicationIdProperty] := by
    rcases hown with ⟨rfl, _⟩ | ⟨rfl, _⟩ <;> simp
  refine ⟨fun h => ⟨fun key value hv => ?_, fun p hs => ?_⟩, fun h key value hv => ?_,
    fun hx v hv => hx v (hw ▸ hv)⟩
  · rw [hy, SortedMap.get?_insert] at hv
    rw [hf]
    split at hv
    · rename_i hkey
      refine ⟨keyPrefix, hp, ?_⟩
      rcases hown with ⟨rfl, rfl⟩ | ⟨rfl, rfl, _⟩
      · exact .inl ⟨hkey, (Option.some.inj hv).symm⟩
      · exact .inr ⟨hkey, (Option.some.inj hv).symm⟩
    · exact h.own key value hv
  · rw [hy, SortedMap.get?_insert] at hs ⊢
    split
    · rfl
    · rename_i hne
      split at hs
      · rename_i hkey
        obtain ⟨rfl, rfl⟩ := propertyKey_inj (by simp) hname hkey
        obtain ⟨hn, _⟩ | ⟨_, _, hthere⟩ := hown
        · exact absurd hkey (hn ▸ (identity_names_differ p p).symm)
        · exact hthere
      · exact h.named p hs
  · rw [hy, SortedMap.get?_insert]
    split
    · rename_i hkey
      obtain ⟨p, _, hkv⟩ := h.own key value hv
      -- What stands there is the session's own already.
      rcases hkv with ⟨hk, rfl⟩ | ⟨hk, rfl⟩
      · obtain ⟨_, rfl⟩ := propertyKey_inj (by simp) hname (hk.symm.trans hkey)
        obtain ⟨_, rfl⟩ | ⟨hn, _⟩ := hown
        · rfl
        · exact absurd hn (by decide)
      · obtain ⟨_, rfl⟩ := propertyKey_inj (by simp) hname (hk.symm.trans hkey)
        obtain ⟨hn, _⟩ | ⟨_, rfl, _⟩ := hown
        · exact absurd hn (by decide)
        · rfl
    · exact hv

end Brands

theorem served_appName_brands (hp : P keyPrefix) (hy : y.core = x.core)
    (h : y.properties = x.properties.insert (propertyKey keyPrefix appNameProperty) (x.fact .appName)) :
    x.Brands P y :=
  .of_insert hp (.inl ⟨rfl, rfl⟩) h (congrArg Session.fact hy :) (congrArg Session.workers hy :)

/-- However far the writing of the identity gets, the session remains branded. -/
theorem writeIdentity_brands (hp : P keyPrefix) (x : Session) :
    x.Brands P ((writeIdentity keyPrefix).run x).2 := by
  rw [makes_writeIdentity x keyPrefix]
  obtain ⟨_, hm⟩ | ⟨first, c, rest, t, hcs, _, _, hm⟩ := makeCalls_cases (x.identityCalls keyPrefix) x <;>
    rw [hm]
  · have hnamed : x.Brands P (([Call.read (.fact .appName),
        .write (propertyKey keyPrefix appNameProperty) (x.fact .appName)]).foldl served x) :=
      served_appName_brands hp (foldl_served_core _ x) rfl
    refine hnamed.trans (.of_insert (f := .applicationId) hp (.inr ⟨rfl, rfl, ?_⟩) rfl rfl rfl)
    change ((x.properties.insert (propertyKey keyPrefix appNameProperty) (x.fact .appName)).get?
      (propertyKey keyPrefix appNameProperty)).isSome = true
    rw [SortedMap.get?_insert_self]
    rfl
  · have hcore : ((first.foldl served x).note c).core = x.core := foldl_served_core first x
    rcases properties_foldl_served hcs x with hs | hs
    · refine .of_properties_eq hs (congrArg Session.fact hcore :) fun hx v hv => hx v ?_
      rw [← show ((first.foldl served x).note c).workers = x.workers from
        (congrArg Session.workers hcore :)]
      exact hv
    · exact served_appName_brands hp hcore hs

theorem admits_brands (P : String → Prop) : Admits P (Brands P) where
  refl x := ⟨fun h => h, fun _ _ _ hv => hv, fun h => h⟩
  trans h h' := h.trans h'
  fewer hp hf hw := .of_properties_eq hp hf fun hx v hv => hx v (hw v hv)
  attached x l hl := .of_properties_eq rfl rfl fun hx v hv => by
    rcases List.mem_append.mp hv with hv | hv
    · exact hx v hv
    · rw [List.mem_singleton.mp hv]
      exact hl
  written x _ hp := writeIdentity_brands hp x
  fits h := h.fits

end Session

/-! ## Programs -/

namespace Program

variable {P Q : String → Prop} {s t : Program} {id : SessionId}

def Branded (P : String → Prop) (s : Program) : Prop :=
  ∀ id x, s.session? id = some x → x.Branded P

theorem Branded.mono (h : s.Branded P) (hpq : ∀ p, P p → Q p) : s.Branded Q :=
  fun id x hx => (h id x hx).mono hpq

theorem Branded.evolves (hs : s.Branded P) (h : Evolves (Session.Brands P) s t) : t.Branded P := by
  intro id y hy
  cases hx : s.session? id with
  | none =>
    obtain ⟨x, hp, _, hxy⟩ := h.added id y hy hx
    exact hxy.branded (Session.branded_of_empty hp)
  | some x =>
    obtain ⟨y', hy', hxy⟩ := h.kept id x hx
    rw [hy] at hy'
    cases hy'
    exact hxy.branded (hs id x hx)

/-! ## Prefixes -/

/-- The configurations of the installers. -/
def configs (s : Program) : Table InstallerId Config := s.installers.map Installer.config

/-- Whether one of the installers writes with a prefix. -/
def HasPrefix (s : Program) (p : String) : Prop :=
  ∃ g config, s.configs.get? g = some config ∧ config.keyPrefix = p

theorem hasPrefix_of_installer {g : InstallerId} {i : Installer} (hi : s.installer? g = some i) :
    s.HasPrefix i.config.keyPrefix := by
  refine ⟨g, i.config, ?_, rfl⟩
  rw [configs, Table.get?_map, show s.installers.get? g = some i from hi, Option.map_some]

theorem configs_forgetGone (g : InstallerId) (s : Program) : (forgetGone g s).2.configs = s.configs := by
  cases hi : s.installer? g with
  | none => rw [forgetGone_of_none hi]
  | some i =>
    rw [forgetGone_eq hi]
    exact Table.map_modify _ _ fun _ => rfl

theorem configs_setStanding (g : InstallerId) (id : SessionId) (st : Option Standing) (s : Program) :
    (setStanding g id st s).configs = s.configs := Table.map_modify _ _ fun _ => rfl

theorem configs_ensureInstalled {left : InstallerId → SessionId → Nat} (h : s.Sound left)
    (g : InstallerId) (id : SessionId) : ((ensureInstalled g id).run s).2.configs = s.configs := by
  obtain ⟨_, _, hrun, _⟩ | ⟨i, r, u, _, _, hin, _, hrun⟩ := ensureInstalled_cases g id s (h.listener_lt id) <;>
    rw [hrun]
  · exact configs_forgetGone g s
  · have hu : u.configs = (setStanding g id (some .installing) (forgetGone g s).2).configs := by
      rw [configs, hin.fields.1]
      rfl
    rw [configs_setStanding, hu, configs_setStanding, configs_forgetGone]

theorem HasPrefix.newInstaller {left : InstallerId → SessionId → Nat} {p : String} (hp : s.HasPrefix p)
    (h : s.Sound left) (config : Config) : (s.newInstaller config).2.HasPrefix p := by
  obtain ⟨g, c, hc, rfl⟩ := hp
  rw [configs, Table.get?_map] at hc
  obtain ⟨i, hi, rfl⟩ := Option.map_eq_some_iff.mp hc
  refine hasPrefix_of_installer (g := g) ?_
  rw [installer?_newInstaller, if_neg]
  · exact hi
  · intro he
    have hn := h.installer?_fresh config
    rw [← he, installer?, hi] at hn
    cases hn

end Program

end SessionTrail
