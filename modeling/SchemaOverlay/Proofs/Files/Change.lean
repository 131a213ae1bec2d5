import SchemaOverlay.Proofs.Files.Above

/-!
What writing a file and creating directories leave of the files. A file that was written is read back from
its path, and at every other place there stands what stood there; and directories are created only where
nothing stood.
-/
namespace SchemaOverlay.FileSystem

open SchemaOverlay.Path

variable {fs fs' fs'' : FileSystem} {p : Path} {content : List UInt8}

/-- Nothing goes away and no file changes; there may be new directories where nothing stood. -/
def Grows (fs fs' : FileSystem) : Prop := ∀ place,
  fs'.stands? place = fs.stands? place ∨
    fs.stands? place = none ∧ fs'.stands? place = some .directory

theorem Grows.refl (fs : FileSystem) : Grows fs fs := fun _ => Or.inl rfl

theorem Grows.trans (first : Grows fs fs') (second : Grows fs' fs'') : Grows fs fs'' := by
  intro place
  rcases second place with same | ⟨vacant, made⟩
  · rw [same]
    exact first place
  · rcases first place with same | ⟨_, there⟩
    · exact Or.inr ⟨same.symm.trans vacant, made⟩
    · rw [there] at vacant
      cases vacant

theorem Grows.file_iff (grows : Grows fs fs') (place : Place) (content : List UInt8) :
    fs'.stands? place = some (.file content) ↔ fs.stands? place = some (.file content) := by
  rcases grows place with same | ⟨vacant, made⟩
  · rw [same]
  · simp [vacant, made]

theorem Grows.directory (grows : Grows fs fs') {place : Place}
    (there : fs.stands? place = some .directory) : fs'.stands? place = some .directory := by
  rcases grows place with same | ⟨_, made⟩
  · rw [same, there]
  · exact made

theorem stands?_put {node : Node} (leaf : node.IsLeaf) {place : Place}
    (closed : fs.stands? place ≠ some .directory) (other : Place) :
    (fs.put place node).stands? other = fs.stands? other ∨
      other = place ∧ (fs.put place node).node? place = some node :=
  Node.stands?_put leaf closed other

theorem grows_of_makeDirectory (made : fs.makeDirectory p = .ok fs') : Grows fs fs' := by
  unfold makeDirectory at made
  cases passed : check p with
  | error f =>
    rw [passed] at made
    cases made
  | ok _ =>
    rw [passed] at made
    simp only [bind, Except.bind] at made
    cases reached : fs.followFrom (fs.start p).1 (withoutSlashes (fs.start p).2) with
    | error f => simp [reached] at made
    | ok spot =>
      simp only [reached] at made
      cases there : spot.node with
      | some node => simp [there] at made
      | none =>
        simp only [there, Except.ok.injEq] at made
        rw [followFrom_eq] at reached
        have vacant : fs.stands? spot.place = none := by
          rw [stands?_eq, ← node_of_follow reached, there]
          rfl
        subst made
        intro place
        rcases stands?_put Node.isLeaf_empty (by rw [vacant]; simp) place with same | ⟨rfl, put⟩
        · exact Or.inl same
        · exact Or.inr ⟨vacant, stands?_of_node? put⟩

theorem grows_makeAll (fs : FileSystem) (paths : List Path) : Grows fs (fs.makeAll paths).1 := by
  induction paths with
  | nil => exact .refl fs
  | cons p outer ih =>
    rw [makeAll]
    split
    · rename_i made done
      exact grows_of_makeDirectory done
    · split
      · rename_i around f failed
        rw [failed] at ih
        exact ih
      · rename_i around done
        rw [done] at ih
        split
        · rename_i made last
          exact ih.trans (grows_of_makeDirectory last)
        · exact ih
    · exact .refl fs

theorem grows_makeDirectories (fs : FileSystem) (p : Path) : Grows fs (fs.makeDirectories p).1 :=
  grows_makeAll fs _

theorem spotOf_of_fileSpot {spot : Spot} (reached : fs.fileSpot p = .ok spot) :
    fs.spotOf p = .ok spot := by
  unfold fileSpot at reached
  cases passed : check p with
  | error f =>
    rw [passed] at reached
    cases reached
  | ok _ =>
    rw [passed] at reached
    rw [spotOf_eq passed, ← followFrom_eq]
    by_cases slash : endsWithSlash p = true
    · simp only [bind, Except.bind, slash, ↓reduceIte, discard, Functor.discard, throw,
        throwThe, MonadExceptOf.throw] at reached
      split at reached
      · cases reached
      · cases reached
    · simpa only [bind, Except.bind, if_neg slash] using reached

theorem node_of_spotOf {spot : Spot} (reached : fs.spotOf p = .ok spot) :
    spot.node = fs.node? spot.place := by
  rw [spotOf_eq (check_of_spotOf reached)] at reached
  exact node_of_follow reached

theorem spotOf_put {spot : Spot} (reached : fs.spotOf p = .ok spot)
    (closed : fs.stands? spot.place ≠ some .directory) (content : List UInt8) :
    (fs.put spot.place (.file content)).spotOf p = .ok ⟨spot.place, some (.file content)⟩ := by
  have passed := check_of_spotOf reached
  rw [spotOf_eq passed] at reached
  obtain ⟨_, piece, around, entries, _, _, _, directory, known, ended⟩ :=
    exists_name_of_follow (start_ne_nil fs p) reached closed
  have written : (fs.put spot.place (.file content)).node? spot.place = some (.file content) := by
    rw [ended]
    exact Node.at?_put ⟨entries, known.symm.trans directory⟩
  have kept (place : Place) (there : fs.stands? place = some .directory) :
      (fs.put spot.place (.file content)).stands? place = some .directory := by
    rcases stands?_put (Node.isLeaf_file content) closed place with same | ⟨rfl, _⟩
    · rw [same, there]
    · exact absurd there closed
  rw [spotOf_eq passed, ← written]
  exact follow_of_kept kept reached

/-- What writing a file at a path does: the path leads to the file, which took the place of a file or of
nothing, and at every other place there stands what stood there. -/
structure Written (fs : FileSystem) (p : Path) (content : List UInt8) (fs' : FileSystem)
    (place : Place) : Prop where
  reached : fs'.spotOf p = .ok ⟨place, some (.file content)⟩
  closed : fs.stands? place ≠ some .directory
  others : ∀ other, other ≠ place → fs'.stands? other = fs.stands? other

theorem exists_written_of_write (done : fs.write p content = .ok fs') :
    ∃ place, Written fs p content fs' place := by
  unfold write at done
  cases found : fs.fileSpot p with
  | error f =>
    rw [found] at done
    cases done
  | ok spot =>
    rw [found] at done
    simp only [bind, Except.bind] at done
    have reached := spotOf_of_fileSpot found
    have closed : fs.stands? spot.place ≠ some .directory := by
      rw [stands?_eq, ← node_of_spotOf reached]
      rcases spot with ⟨place, _ | ⟨file | entries⟩⟩
      · simp
      · simp [Node.standing]
      · cases done
    have put : fs' = fs.put spot.place (.file content) := by
      rcases spot with ⟨place, _ | ⟨file | entries⟩⟩
      · exact (Except.ok.inj done).symm
      · exact (Except.ok.inj done).symm
      · cases done
    refine ⟨spot.place, put ▸ spotOf_put reached closed content, closed, fun other apart => ?_⟩
    rw [put]
    exact (stands?_put (Node.isLeaf_file content) closed other).resolve_right fun here =>
      apart here.1

end SchemaOverlay.FileSystem
