import BlockSync.Options
import BlockSync.Proofs.Tag.Syntax

/-! Options that a configuration amounts to. Each of them is what the configuration says or the
default; their comments are there, and none of these is empty or has a blank in it. -/

namespace BlockSync.Options

/-- The options are what the configuration says and the defaults say where it is silent, and what they
are made of is sound. -/
structure Fills (config : Config) (o : Options) : Prop where
  includes : o.includes = config.include?.getD []
  excludes : o.excludes = config.exclude?.getD []
  ignoreFiles : o.ignoreFiles = config.ignoreFiles?.getD []
  comments : o.comments = config.comments?.getD TagSyntax.defaultComments
  autoFix : o.autoFix = config.autoFix?.getD false
  dryRun : o.dryRun = config.dryRun?.getD false
  json : o.json = config.json?.getD false
  rootMarker : o.rootMarker = config.rootMarker?.getD defaultRootMarker
  allowEmptyTags : o.allowEmptyTags = config.allowEmptyTags?.getD false
  migrations : checkedMigrations config.migration? = .ok o.migrations
  cache : o.cache = config.cache?.map fun (path, mode) => (.ofText path, mode)
  commentFault? : commentFault? o.comments = none
  rootMarkerFault? : rootMarkerFault? o.rootMarker = none

theorem fills_of_ofConfig {config : Config} {o : Options} (h : ofConfig config = .ok o) :
    Fills config o := by
  unfold ofConfig at h
  dsimp only at h
  split at h
  next => simp at h
  next => simp at h
  next => simp at h
  next hcomments hmarker hmigrations =>
    obtain rfl := Except.ok.inj h
    exact ⟨rfl, rfl, rfl, rfl, rfl, rfl, rfl, rfl, rfl, hmigrations, rfl, hcomments, hmarker⟩

/-- Only the comments, the root marker and the migrations can be wrong. -/
theorem exists_ofConfig_iff {config : Config} : (∃ o, ofConfig config = .ok o) ↔
    commentFault? (config.comments?.getD TagSyntax.defaultComments) = none ∧
      rootMarkerFault? (config.rootMarker?.getD defaultRootMarker) = none ∧
        ∃ m, checkedMigrations config.migration? = .ok m := by
  constructor
  · rintro ⟨o, h⟩
    have hfills := fills_of_ofConfig h
    exact ⟨hfills.comments ▸ hfills.commentFault?, hfills.rootMarker ▸ hfills.rootMarkerFault?,
      _, hfills.migrations⟩
  · rintro ⟨hcomments, hmarker, m, hmigrations⟩
    unfold ofConfig
    dsimp only
    rw [hcomments, hmarker, hmigrations]
    exact ⟨_, rfl⟩

/-- Some configuration amounts to these options. -/
def Valid (o : Options) : Prop :=
  ∃ config, ofConfig config = .ok o

theorem commentFault?_of_valid {o : Options} (h : o.Valid) : commentFault? o.comments = none := by
  obtain ⟨config, hc⟩ := h
  exact (fills_of_ofConfig hc).commentFault?

theorem plain_of_valid {o : Options} (h : o.Valid) : o.tagSyntax.Plain := by
  have hf := commentFault?_of_valid h
  unfold commentFault? at hf
  split at hf
  next => simp at hf
  next =>
    intro comment hm c hc
    have hm' := (Tag.Syntax.mem_arrange.mp hm).1
    have hno := List.find?_eq_none.mp (Option.map_eq_none_iff.mp hf) comment hm'
    simp only [Bool.or_eq_true, not_or, List.any_eq_true, not_exists, not_and] at hno
    simpa using hno.2 c hc

/-- What an empty configuration amounts to. -/
def standard : Options where
  includes := []
  excludes := []
  ignoreFiles := []
  comments := TagSyntax.defaultComments
  autoFix := false
  dryRun := false
  json := false
  rootMarker := defaultRootMarker
  allowEmptyTags := false
  migrations := .none
  cache := none

theorem standard_valid : standard.Valid :=
  ⟨.empty, by rfl⟩

/-- Without mappings nothing has moved. -/
def Settled (o : Options) : Prop :=
  o.migrations.mappings.isEmpty = true

theorem standard_settled : standard.Settled := rfl

theorem Settled.resolveTarget {o : Options} (h : o.Settled) (root : Path) (target : Text) :
    o.migrations.resolveTarget root target = none :=
  if_pos h

end BlockSync.Options
