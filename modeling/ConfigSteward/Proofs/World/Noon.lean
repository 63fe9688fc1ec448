import ConfigSteward.World.Perform

/-!
# Worlds at noon

The worlds on which results are tried: some files at noon of the first of May 2024, programs that all
answer alike, and no calls so far.
-/
namespace ConfigSteward

/-- A program ended well. -/
def CommandResult.well : CommandResult := ⟨true, "", some 0, false⟩

/-- A program turned down what it was given. -/
def CommandResult.bad : CommandResult := ⟨false, "bad", some 1, false⟩

/-- Programs that answer alike whatever they are given, and touch no file. -/
def Programs.replying (reply : Except Failure CommandResult) : Programs := fun _ _ tree => (reply, tree)

namespace World

def noon : Nat := 63850161600000000

/-- A world at noon without a reading noted so far. Its programs answer alike, and unless that is said
they cannot be run. -/
def atNoon (tree : Tree) (reply : Except Failure CommandResult := .error .noFileNamed) : World :=
  { tree, here := [], clock := noon, noted := [], programs := .replying reply, ran := [] }

@[simp] theorem atNoon_tree (tree : Tree) (reply : Except Failure CommandResult) :
    (atNoon tree reply).tree = tree := rfl

@[simp] theorem atNoon_here (tree : Tree) (reply : Except Failure CommandResult) :
    (atNoon tree reply).here = [] := rfl

/-- A folder for backups, and another folder with a link to the folder itself. Every program ends
well. -/
def knotted : World :=
  atNoon ⟨[(["b"], .folder), (["d"], .folder), (["d", "l"], .link "/d")]⟩ (.ok .well)

end World
end ConfigSteward
