import HclSyntax.Text.Cluster

namespace HclSyntax

def Small (cluster : List Char) : Prop := cluster = ['\r', '\n'] ∨ ∃ c, cluster = [c]

/-- A cut of texts into clusters. It loses nothing, and in ASCII nothing but CRLF stays together. -/
structure Segmentation where
  split : List Char → List (List Char)
  flatten_split (text : List Char) : (split text).flatten = text
  ne_nil {text cluster : List Char} (h : cluster ∈ split text) : cluster ≠ []
  small_of_ascii {text : List Char} (h : ∀ c ∈ text, c.toNat < 128) :
    ∀ cluster ∈ split text, Small cluster

theorem Segmentation.split_ascii (s : Segmentation) {text : List Char}
    (h : ∀ c ∈ text, c.toNat < 128) (hn : '\n' ∉ text) : s.split text = text.map ([·]) := by
  have hsingle : ∀ clusters : List (List Char), (∀ cluster ∈ clusters, ∃ c, cluster = [c]) →
      clusters = clusters.flatten.map ([·]) := by
    intro clusters hc
    induction clusters with
    | nil => rfl
    | cons cluster clusters ih =>
      rw [List.forall_mem_cons] at hc
      obtain ⟨⟨c, rfl⟩, hc⟩ := hc
      rw [List.flatten_cons, List.map_append, ← ih hc]
      rfl
  have heq := hsingle (s.split text) fun cluster hm =>
    (s.small_of_ascii h cluster hm).resolve_left ?_
  · rwa [s.flatten_split] at heq
  · rintro rfl
    exact hn (s.flatten_split text ▸ List.mem_flatten.mpr ⟨_, hm, by simp⟩)

namespace BreakClass

def Plain (k : BreakClass) : Prop :=
  k = carriageReturn ∨ k = lineFeed ∨ k = control ∨ k = other

instance : DecidablePred Plain := fun k => by unfold Plain; infer_instance

theorem plain_of_ascii {c : Char} (h : c.toNat < 128) : (of c).Plain := by
  have hall : ∀ n : Fin 128, (of (Char.ofNat n)).Plain := by decide +kernel
  simpa using hall ⟨c.toNat, h⟩

theorem eq_of_lineFeed {c : Char} (h : c.toNat < 128) (hc : of c = lineFeed) : c = '\n' := by
  have hall : ∀ n : Fin 128, of (Char.ofNat n) = lineFeed → Char.ofNat n = '\n' := by
    decide +kernel
  simpa [hc] using hall ⟨c.toNat, h⟩

theorem eq_of_carriageReturn {c : Char} (h : c.toNat < 128) (hc : of c = carriageReturn) :
    c = '\r' := by
  have hall : ∀ n : Fin 128, of (Char.ofNat n) = carriageReturn → Char.ofNat n = '\r' := by
    decide +kernel
  simpa [hc] using hall ⟨c.toNat, h⟩

end BreakClass

theorem ClusterState.joins_plain {s : ClusterState} {c : Char} (hs : s.last.Plain)
    (hc : (BreakClass.of c).Plain) (h : s.joins c = true) :
    s.last = .carriageReturn ∧ BreakClass.of c = .lineFeed := by
  unfold ClusterState.joins at h
  rcases hs with hs | hs | hs | hs <;> rcases hc with hc | hc | hc | hc <;> simp_all

namespace Cluster

variable {text : List Char}

theorem splitFrom_ascii (s : ClusterState) (hs : s.last.Plain)
    (h : ∀ c ∈ text, c.toNat < 128) :
    ((splitFrom s text).1 = [] ∨ s.last = .carriageReturn ∧ (splitFrom s text).1 = ['\n']) ∧
      ∀ cluster ∈ (splitFrom s text).2, Small cluster := by
  induction text generalizing s with
  | nil => simp [splitFrom]
  | cons c text ih =>
    rw [List.forall_mem_cons] at h
    obtain ⟨hc, h⟩ := h
    have hplain := BreakClass.plain_of_ascii hc
    rw [splitFrom]
    split
    · rename_i hj
      obtain ⟨hcr, hlf⟩ := ClusterState.joins_plain hs hplain hj
      obtain ⟨hfirst, hothers⟩ := ih (s.next c) hplain h
      have hnil := hfirst.resolve_right fun hr => by simp [ClusterState.next, hlf] at hr
      refine ⟨.inr ⟨hcr, ?_⟩, hothers⟩
      rw [← BreakClass.eq_of_lineFeed hc hlf, ← hnil]
    · obtain ⟨hfirst, hothers⟩ := ih (.start c) hplain h
      refine ⟨.inl rfl, List.forall_mem_cons.mpr ⟨?_, hothers⟩⟩
      rcases hfirst with hfirst | ⟨hcr, hfirst⟩
      · exact .inr ⟨c, by rw [hfirst]⟩
      · exact .inl (by rw [hfirst, BreakClass.eq_of_carriageReturn hc hcr])

theorem small_of_ascii (h : ∀ c ∈ text, c.toNat < 128) : ∀ cluster ∈ split text, Small cluster := by
  cases text with
  | nil => simp [split]
  | cons c text =>
    rw [List.forall_mem_cons] at h
    obtain ⟨hc, h⟩ := h
    obtain ⟨hfirst, hothers⟩ := splitFrom_ascii (.start c) (BreakClass.plain_of_ascii hc) h
    refine List.forall_mem_cons.mpr ⟨?_, hothers⟩
    rcases hfirst with hfirst | ⟨hcr, hfirst⟩
    · exact .inr ⟨c, by rw [hfirst]⟩
    · exact .inl (by rw [hfirst, BreakClass.eq_of_carriageReturn hc hcr])

theorem ne_nil_of_mem_splitFrom (s : ClusterState) {cluster : List Char}
    (h : cluster ∈ (splitFrom s text).2) : cluster ≠ [] := by
  induction text generalizing s with
  | nil => cases h
  | cons c text ih =>
    rw [splitFrom] at h
    split at h
    · exact ih _ h
    · rcases List.mem_cons.mp h with rfl | h
      · exact List.cons_ne_nil _ _
      · exact ih _ h

theorem ne_nil_of_mem_split {cluster : List Char} (h : cluster ∈ split text) : cluster ≠ [] := by
  cases text with
  | nil => cases h
  | cons c text =>
    rcases List.mem_cons.mp h with rfl | h
    · exact List.cons_ne_nil _ _
    · exact ne_nil_of_mem_splitFrom _ h

def segmentation : Segmentation where
  split := split
  flatten_split := split_flatten
  ne_nil := ne_nil_of_mem_split
  small_of_ascii := small_of_ascii

end Cluster

end HclSyntax
