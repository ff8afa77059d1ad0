import KeywordCompletion.Catalog
import KeywordCompletion.Document
import KeywordCompletion.Url.Basic

/-!
# Open documents

The documents that an editor has open, by URL. Changes to a document that is not open are left
out.
-/

namespace KeywordCompletion

/-- The documents that an editor has open. -/
structure OpenDocuments where
  documents : Catalog Url Document

namespace OpenDocuments

def empty : OpenDocuments := ⟨Catalog.empty⟩

def get? (store : OpenDocuments) (uri : Url) : Option Document := store.documents.get? uri

def size (store : OpenDocuments) : Nat := store.documents.size

def opened (store : OpenDocuments) (uri : Url) (t : Text) (version : Int) : OpenDocuments :=
  ⟨store.documents.insert uri (Document.ofText t version)⟩

/-- The documents after changes to one of them, if it is open. -/
def changed (store : OpenDocuments) (uri : Url) (changes : List Change) (version : Int) :
    OpenDocuments :=
  match store.get? uri with
  | some d => ⟨store.documents.insert uri (d.applyChanges changes version)⟩
  | none => store

/-- The document as it is after it was saved, possibly with another text than the one known. -/
def savedDocument (d : Document) (t : Option Text) : Document :=
  match t with
  | some t => if t = d.text then d else d.setText t d.version
  | none => d

/-- The documents after one of them was saved, if it is open. -/
def saved (store : OpenDocuments) (uri : Url) (t : Option Text) : OpenDocuments :=
  match store.get? uri with
  | some d => ⟨store.documents.insert uri (savedDocument d t)⟩
  | none => store

def closed (store : OpenDocuments) (uri : Url) : OpenDocuments := ⟨store.documents.erase uri⟩

end OpenDocuments

end KeywordCompletion
