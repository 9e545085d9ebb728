/-!
# Component libraries

The names of the components of the Dash libraries, and the spellings of attributes that differ from
the arguments of their constructors.
-/

namespace ComponentMarkup.Library

def htmlElements : List String :=
  ["A", "Abbr", "Acronym", "Address", "Area", "Article", "Aside", "Audio", "B", "Base", "Basefont",
    "Bdi", "Bdo", "Big", "Blink", "Blockquote", "Br", "Button", "Canvas", "Caption", "Center",
    "Cite", "Code", "Col", "Colgroup", "Command", "Content", "Data", "Datalist", "Dd", "Del",
    "Details", "Dfn", "Dialog", "Div", "Dl", "Dt", "Element", "Em", "Embed", "Fieldset",
    "Figcaption", "Figure", "Font", "Footer", "Form", "Frame", "Frameset", "H1", "H2", "H3", "H4",
    "H5", "H6", "Header", "Hgroup", "Hr", "I", "Iframe", "Img", "Ins", "Isindex", "Kbd", "Keygen",
    "Label", "Legend", "Li", "Link", "Listing", "Main", "Map", "Mark", "Marquee", "Meta", "Meter",
    "Multicol", "Nav", "Nextid", "Nobr", "Noscript", "Object", "Ol", "Optgroup", "Option", "Output",
    "P", "Param", "Picture", "Plaintext", "Pre", "Progress", "Q", "Rb", "Rp", "Rt", "Rtc", "Ruby",
    "S", "Samp", "Script", "Section", "Select", "Shadow", "Slot", "Small", "Source", "Spacer",
    "Span", "Strike", "Strong", "Sub", "Summary", "Sup", "Table", "Tbody", "Td", "Template",
    "Textarea", "Tfoot", "Th", "Thead", "Time", "Title", "Tr", "Track", "U", "Ul", "Var", "Video",
    "Wbr", "Xmp"]

def coreComponents : List String :=
  ["Checklist", "ConfirmDialog", "ConfirmDialogProvider", "DatePickerRange", "DatePickerSingle",
    "Dropdown", "Graph", "Input", "Interval", "Link", "Loading", "Location", "LogoutButton",
    "Markdown", "RadioItems", "RangeSlider", "Slider", "Store", "SyntaxHighlighter", "Tab", "Tabs",
    "Textarea", "Upload"]

def bootstrapComponents : List String :=
  ["Alert", "Badge", "Button", "ButtonGroup", "Card", "CardBody", "CardColumns", "CardDeck",
    "CardFooter", "CardGroup", "CardHeader", "CardImg", "CardImgOverlay", "CardLink",
    "CardSubtitle", "CardText", "CardTitle", "Checkbox", "Checklist", "Col", "Collapse",
    "Container", "DatePickerRange", "DatePickerSingle", "DropdownMenu", "DropdownMenuItem", "Fade",
    "Form", "FormFeedback", "FormGroup", "FormText", "Input", "InputGroup", "InputGroupAddon",
    "InputGroupText", "Jumbotron", "Label", "ListGroup", "ListGroupItem", "ListGroupItemHeading",
    "ListGroupItemText", "Modal", "ModalBody", "ModalFooter", "ModalHeader", "Nav", "NavItem",
    "NavLink", "Navbar", "NavbarBrand", "NavbarSimple", "NavbarToggler", "Popover", "PopoverBody",
    "PopoverHeader", "Progress", "RadioButton", "RadioItems", "Row", "Select", "Spinner", "Tab",
    "Table", "Tabs", "Textarea", "Toast", "Tooltip"]

/-- Attributes with the arguments they are passed as. -/
def attributeNames : List (String × String) :=
  [("class", "className"), ("accesskey", "accessKey"), ("hreflang", "hrefLang"),
    ("contenteditable", "contentEditable"), ("tabindex", "tabIndex"), ("colspan", "colSpan"),
    ("rowspan", "rowSpan"), ("spellcheck", "spellCheck"), ("for", "htmlFor")]

end ComponentMarkup.Library
